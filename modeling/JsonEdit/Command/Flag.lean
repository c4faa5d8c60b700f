/-!
# Flags

* A `Flag` is known by a long name and some also by a letter. A flag either takes a value or is a
  switch.
* A `Verb` is a command. A `Scope` is the part of a command line in which a set of flags is known:
  before the name of a command, or behind it.

`help` as the name of a command is left out. `confpatch help`, and `confpatch help set`, print a
text and end well; here such a line is misused, as `help` names no `Verb`.
-/

namespace JsonEdit.Command

inductive Flag where
  | input
  | output
  | errorFormat
  | inPlace
  | backup
  | dryRun
  | verbose
  | help
  | version
  deriving DecidableEq, Repr

namespace Flag

def long : Flag → String
  | input => "input"
  | output => "output"
  | errorFormat => "error-format"
  | inPlace => "in-place"
  | backup => "backup"
  | dryRun => "dry-run"
  | verbose => "verbose"
  | help => "help"
  | version => "version"

def letter? : Flag → Option Char
  | input => some 'i'
  | output => some 'o'
  | verbose => some 'v'
  | help => some 'h'
  | version => some 'V'
  | _ => none

def takesValue : Flag → Bool
  | input => true
  | output => true
  | errorFormat => true
  | _ => false

/-- The values that a flag may have. -/
def accepts (f : Flag) (v : String) : Bool :=
  match f with
  | errorFormat => v = "text" || v = "json"
  | _ => true

end Flag

inductive Verb where
  | set
  | format
  | validate
  deriving DecidableEq, Repr

/-- The command with this name, `help` apart, which is left out. -/
def Verb.ofName? (name : String) : Option Verb :=
  if name = "set" then some .set
  else if name = "fmt" then some .format
  else if name = "validate" then some .validate
  else none

inductive Scope where
  | top
  | behind (v : Verb)
  deriving DecidableEq, Repr

namespace Scope

def flags : Scope → List Flag
  | top => [.errorFormat, .verbose, .help, .version]
  | behind .set => [.input, .output, .inPlace, .backup, .dryRun, .errorFormat, .verbose, .help]
  | behind .format => [.input, .output, .errorFormat, .verbose, .help]
  | behind .validate => [.input, .errorFormat, .verbose, .help]

/-- How many plain words may be given. -/
def capacity : Scope → Nat
  | behind .set => 2
  | _ => 0

def long? (s : Scope) (name : String) : Option Flag :=
  s.flags.find? (·.long = name)

def letter? (s : Scope) (c : Char) : Option Flag :=
  s.flags.find? (·.letter? = some c)

end Scope

end JsonEdit.Command
