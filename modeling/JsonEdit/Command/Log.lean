import JsonEdit.Edit.Target
import JsonEdit.Text.Pieces
import JsonEdit.Text.Visible

/-!
# The log

* An `Event` is something that a command did on its way. It has a level and an origin, the part of
  the program that it is from.
* A `Filter` is a list of rules. The rule that decides on an event is the one with the longest
  origin that the event's origin begins with; without such a rule the event is not shown.
* `Filter.parse` reads rules with commas between them.
-/

namespace JsonEdit.Command

inductive Level where
  | off
  | error
  | warn
  | info
  | debug
  | trace
  deriving DecidableEq, Repr

namespace Level

/-- From the quietest to the most talkative. -/
def all : List Level :=
  [.off, .error, .warn, .info, .debug, .trace]

def rank : Level → Nat
  | off => 0
  | error => 1
  | warn => 2
  | info => 3
  | debug => 4
  | trace => 5

def name : Level → String
  | off => "OFF"
  | error => "ERROR"
  | warn => "WARN"
  | info => "INFO"
  | debug => "DEBUG"
  | trace => "TRACE"

/-- A level by its name, in any mix of cases, or by its rank. -/
def ofWord? (word : String) : Option Level :=
  match nameIndex? word with
  | some n => all[n]?
  | none => all.find? fun l => l.name.toList = word.toList.map Char.toUpper

end Level

/-! ## Events -/

/-- The part of the program that an event is from. -/
inductive Origin where
  | command
  | edit
  deriving DecidableEq, Repr

def Origin.name : Origin → String
  | .command => "confpatch"
  | .edit => "confpatch_core::mutate"

inductive Event where
  | fileRead (file : String) (bytes : Nat)
  | inputRead (bytes : Nat)
  /-- The container that a path leads to was found. -/
  | targetFound (path : String) (parent : Kind)
  /-- The kind of a value given as free text was settled. -/
  | valueInferred (kind : Kind)
  | dryRun (path : String)
  | backupWritten (backup : String)
  | fileWritten (file : String) (bytes : Nat)
  deriving DecidableEq, Repr

namespace Event

def level : Event → Level
  | dryRun _ => .info
  | _ => .debug

def origin : Event → Origin
  | targetFound .. => .edit
  | valueInferred _ => .edit
  | _ => .command

def text : Event → String
  | fileRead file n => "read document file=" ++ quoteName file ++ " bytes=" ++ Decimal.numeral n
  | inputRead n => "read document from stdin bytes=" ++ Decimal.numeral n
  | targetFound path parent =>
    "resolved mutation target path=" ++ path ++ " parent=" ++ quoteName parent.name
  | valueInferred kind => "coerced replacement value kind=" ++ quoteName kind.name
  | dryRun path => "dry run, nothing written path=" ++ path
  | backupWritten backup => "backup written backup=" ++ backup
  | fileWritten file n => "wrote document file=" ++ quoteName file ++ " bytes=" ++ Decimal.numeral n

/-- The line of an event; levels are set flush right. -/
def line (e : Event) : String :=
  String.ofList (List.replicate (5 - e.level.name.length) ' ') ++ e.level.name ++ " " ++
    e.origin.name ++ ": " ++ e.text ++ "\n"

end Event

/-! ## Filters -/

/-- Events whose origin begins with `origin` are shown up to a level. -/
structure Rule where
  origin : String
  level : Level
  deriving DecidableEq, Repr

namespace Rule

/-- Everything up to a level, whatever its origin. -/
def upTo (level : Level) : Rule := ⟨"", level⟩

def covers (r : Rule) (o : Origin) : Bool :=
  r.origin.toList.isPrefixOf o.name.toList

def isOriginChar (c : Char) : Bool :=
  c.isAlphanum || c = '-' || c = ':' || c = '_'

/-- A rule is a level, an origin, or an origin, `=` and a level. An origin alone lets everything
through. -/
def parse? (s : List Char) : Option Rule :=
  match pieces '=' s with
  | ([], word) =>
    if word.all isOriginChar then
      some (((Level.ofWord? (String.ofList word)).map upTo).getD ⟨String.ofList word, .trace⟩)
    else none
  | ([origin], word) =>
    if origin ≠ [] ∧ origin.all isOriginChar then
      if word = [] then some ⟨String.ofList origin, .trace⟩
      else (Level.ofWord? (String.ofList word)).map (⟨String.ofList origin, ·⟩)
    else none
  | _ => none

end Rule

abbrev Filter := List Rule

namespace Filter

/-- The rule with the longest origin that covers `o`; of two such rules the later one. -/
def deciding? (f : Filter) (o : Origin) : Option Rule :=
  (f.filter (·.covers o)).foldl
    (fun best r => if best.all (·.origin.length ≤ r.origin.length) then some r else best) none

def admits (f : Filter) (e : Event) : Bool :=
  (f.deciding? e.origin).any (e.level.rank ≤ ·.level.rank)

/-- Used where no filter is given, or one that cannot be read. -/
def standard : Filter := [.upTo .warn]

/-- Shows all that a command tells about its work. -/
def verbose : Filter := [.upTo .debug]

/-- Reads rules with commas between them. Without any rule only errors are shown. -/
def parse (text : String) : Filter :=
  let (leading, last) := pieces ',' text.toList
  match (leading ++ [last]).filter (· ≠ []) with
  | [] => [.upTo .error]
  | rules => (rules.mapM Rule.parse?).getD standard

end Filter

end JsonEdit.Command
