import JsonEdit.Command.Failure
import JsonEdit.Command.Flag

/-!
# Reading the command line

* The words of a command line are read from left to right. A flag that takes a value has it attached
  with `=`, or behind its letter, or in the next word; all other words are plain.
* Behind `--` every word is plain. The second plain word of `set`, the value to store, may also look
  like a flag as long as it is not one.
* `Invocation.ofArguments` gives what is asked for. A `Halt` says that nothing is to be run.

The words of a `Misuse` are this library's own; only that a line is misused is meant to be exact. A
`Halt` does not tell behind which command help was asked for, as the text of help is left out.
-/

namespace JsonEdit.Command

/-! ## What can be asked for -/

/-- Where a document comes from and where the result goes. Both are the same file where an edit is
made in place. -/
inductive Route where
  /-- From a file or standard input to a file or standard output. -/
  | through (source target : Option String)
  /-- From a file to a file, with a backup of the first. -/
  | guarded (source target : String)
  deriving DecidableEq, Repr

def Route.source : Route → Option String
  | through source _ => source
  | guarded source _ => some source

inductive Task where
  | set (path value : String) (route : Route) (dryRun : Bool)
  | format (source target : Option String)
  | validate (source : Option String)
  deriving DecidableEq, Repr

structure Invocation where
  task : Task
  verbose : Bool
  format : Format
  deriving DecidableEq, Repr

inductive Misuse where
  | noCommand
  | unexpected (word : String)
  | noValue (flag : Flag)
  | needlessValue (flag : Flag)
  | badValue (flag : Flag) (value : String)
  | repeated (flag : Flag)
  | tooFewWords
  | inPlaceWithoutInput
  | inPlaceWithOutput
  | backupWithoutInput
  | backupWithoutTarget
  deriving DecidableEq, Repr

def Misuse.message : Misuse → String
  | .noCommand => "a command is missing"
  | .unexpected word => "unexpected argument '" ++ word ++ "'"
  | .noValue flag => "--" ++ flag.long ++ " needs a value"
  | .needlessValue flag => "--" ++ flag.long ++ " takes no value"
  | .badValue flag value => "--" ++ flag.long ++ " cannot be '" ++ value ++ "'"
  | .repeated flag => "--" ++ flag.long ++ " is given twice"
  | .tooFewWords => "a path and a value are needed"
  | .inPlaceWithoutInput => "--in-place needs --input"
  | .inPlaceWithOutput => "--in-place and --output exclude each other"
  | .backupWithoutInput => "--backup needs --input"
  | .backupWithoutTarget => "--backup needs --in-place or --output"

/-- Why nothing is to be run. -/
inductive Halt where
  | help
  | version
  | misuse (m : Misuse)
  deriving DecidableEq, Repr

/-! ## Words of one scope -/

/-- What has been given in one scope. -/
structure Given where
  switches : List Flag
  values : List (Flag × String)
  words : List String
  /-- A flag whose value is to be the next word. -/
  awaiting : Option Flag
  deriving DecidableEq, Repr

namespace Given

def nothing : Given := ⟨[], [], [], none⟩

def has (g : Given) (f : Flag) : Bool :=
  f ∈ g.switches

def value? (g : Given) (f : Flag) : Option String :=
  Members.find? f g.values

def addValue (g : Given) (f : Flag) (v : String) : Except Halt Given :=
  if f.accepts v then .ok { g with values := g.values ++ [(f, v)], awaiting := none }
  else .error (.misuse (.badValue f v))

def addSwitch (g : Given) : Flag → Except Halt Given
  | .help => .error .help
  | .version => .error .version
  | f => .ok { g with switches := g.switches ++ [f] }

/-- Notes a flag with the value attached to it, if there is one. No flag is given twice, and none
where a value is awaited. -/
def addFlag (g : Given) (f : Flag) (attached : Option String) : Except Halt Given :=
  match g.awaiting with
  | some waiting => .error (.misuse (.noValue waiting))
  | none =>
    if g.has f ∨ (g.value? f).isSome then .error (.misuse (.repeated f))
    else
      match f.takesValue, attached with
      | true, some v => g.addValue f v
      | true, none => .ok { g with awaiting := some f }
      | false, some _ => .error (.misuse (.needlessValue f))
      | false, none => g.addSwitch f

/-- Notes a plain word, which may be the value of a flag. -/
def addWord (scope : Scope) (g : Given) (word : String) : Except Halt Given :=
  match g.awaiting with
  | some f => g.addValue f word
  | none =>
    if g.words.length < scope.capacity then .ok { g with words := g.words ++ [word] }
    else .error (.misuse (.unexpected word))

/-- The next plain word is the value to store. -/
def atValue (scope : Scope) (g : Given) : Bool :=
  scope = .behind .set && g.words.length = 1

/-- Several letters in one word. Behind a flag that takes a value the rest of the word is that
value. -/
def addLetters (scope : Scope) (g : Given) (word : String) : List Char → Except Halt Given
  | [] => .ok g
  | c :: cs =>
    match scope.letter? c with
    | none => .error (.misuse (.unexpected word))
    | some f =>
      if f.takesValue then
        match cs with
        | [] => g.addFlag f none
        | d :: ds => g.addFlag f (some (String.ofList (if d = '=' then ds else d :: ds)))
      else
        match g.addFlag f none with
        | .error h => .error h
        | .ok g => addLetters scope g word cs

/-- The name of a long flag and the value attached to it. -/
def splitLong (s : List Char) : String × Option String :=
  match s.dropWhile (· ≠ '=') with
  | [] => (String.ofList s, none)
  | _ :: v => (String.ofList (s.takeWhile (· ≠ '=')), some (String.ofList v))

def addLong (scope : Scope) (g : Given) (word : String) (s : List Char) : Except Halt Given :=
  let (name, attached) := splitLong s
  match scope.long? name with
  | some f => g.addFlag f attached
  | none =>
    if g.atValue scope then g.addWord scope word else .error (.misuse (.unexpected word))

/-- Notes a word that may be a flag. -/
def add (scope : Scope) (g : Given) (word : String) : Except Halt Given :=
  match word.toList with
  | '-' :: '-' :: s => g.addLong scope word s
  | '-' :: c :: cs =>
    if g.atValue scope ∧ (c :: cs).any (fun c => (scope.letter? c).isNone) then g.addWord scope word
    else g.addLetters scope word (c :: cs)
  | _ => g.addWord scope word

/-- Words behind `--`. -/
def addPlain (scope : Scope) (g : Given) : List String → Except Halt Given
  | [] => .ok g
  | word :: words =>
    match g.addWord scope word with
    | .error h => .error h
    | .ok g => addPlain scope g words

/-- Nothing may be awaited any more. -/
def closed (g : Given) : Except Halt Given :=
  match g.awaiting with
  | some f => .error (.misuse (.noValue f))
  | none => .ok g

/-- All words behind the name of a command. -/
def addAll (scope : Scope) (g : Given) : List String → Except Halt Given
  | [] => g.closed
  | word :: words =>
    if word = "--" then
      match g.closed with
      | .error h => .error h
      | .ok g => addPlain scope g words
    else
      match g.add scope word with
      | .error h => .error h
      | .ok g => addAll scope g words

end Given

/-! ## The whole line -/

/-- What was given before the name of a command, the command, and what was given behind it. -/
structure Line where
  top : Given
  verb : Verb
  inner : Given

/-- Reads up to the name of a command, and on from there. -/
def Line.read (top : Given) : List String → Except Halt Line
  | [] => .error (.misuse .noCommand)
  | word :: words =>
    match top.awaiting, Verb.ofName? word with
    | none, some verb => (Given.nothing.addAll (.behind verb) words).map (⟨top, verb, ·⟩)
    | _, _ =>
      match top.add .top word with
      | .error h => .error h
      | .ok top => read top words

namespace Line

def verbose (l : Line) : Bool :=
  l.top.has .verbose || l.inner.has .verbose

/-- What was given behind the name of the command counts more. -/
def format (l : Line) : Format :=
  match l.inner.value? .errorFormat <|> l.top.value? .errorFormat with
  | some "json" => .json
  | _ => .text

/-- The files that a document comes from and goes to. -/
def ends (g : Given) : Except Misuse (Option String × Option String) :=
  match g.has .inPlace, g.value? .input, g.value? .output with
  | false, source, target => .ok (source, target)
  | true, none, _ => .error .inPlaceWithoutInput
  | true, some _, some _ => .error .inPlaceWithOutput
  | true, some file, none => .ok (some file, some file)

/-- A backup is made only on the way from a file to a file. -/
def route (g : Given) : Except Misuse Route :=
  match ends g, g.has .backup with
  | .error m, _ => .error m
  | .ok (source, target), false => .ok (.through source target)
  | .ok (some source, some target), true => .ok (.guarded source target)
  | .ok (none, _), true => .error .backupWithoutInput
  | .ok (some _, none), true => .error .backupWithoutTarget

def task (l : Line) : Except Misuse Task :=
  let g := l.inner
  match l.verb with
  | .set =>
    match g.words with
    | [path, value] => (route g).map (.set path value · (g.has .dryRun))
    | _ => .error .tooFewWords
  | .format => .ok (.format (g.value? .input) (g.value? .output))
  | .validate => .ok (.validate (g.value? .input))

end Line

/-- What the words of a command line ask for. -/
def Invocation.ofArguments (words : List String) : Except Halt Invocation :=
  match Line.read .nothing words with
  | .error h => .error h
  | .ok l =>
    match l.task with
    | .error m => .error (.misuse m)
    | .ok task => .ok ⟨task, l.verbose, l.format⟩

end JsonEdit.Command
