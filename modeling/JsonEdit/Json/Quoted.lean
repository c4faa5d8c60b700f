import JsonEdit.Json.Fault

/-!
# Quoted strings

* `escape` writes the characters of a string between its quotes; only quotes, backslashes and
  control characters are written in another form.
* `piece` reads one character of a quoted string, `readQuoted` a whole one, and `skipQuoted` passes
  over one without looking at the characters that `\u` stands for.
* All three start behind the opening quote and go past the closing one.
-/

namespace JsonEdit.Json

/-! ## Writing -/

/-- Characters below this one are written as escapes. -/
def isControl (c : Char) : Bool :=
  c.toNat < 0x20

def hexDigit (n : Nat) : Char :=
  if n < 10 then Char.ofNat ('0'.toNat + n) else Char.ofNat ('a'.toNat + n - 10)

/-- The letter that stands for a character behind a backslash. -/
def letterOf? : Char → Option Char
  | '"' => some '"'
  | '\\' => some '\\'
  | '\x08' => some 'b'
  | '\x0c' => some 'f'
  | '\n' => some 'n'
  | '\r' => some 'r'
  | '\t' => some 't'
  | _ => none

def escapeChar (c : Char) : List Char :=
  match letterOf? c with
  | some l => ['\\', l]
  | none =>
    if isControl c then ['\\', 'u', '0', '0', hexDigit (c.toNat / 16), hexDigit (c.toNat % 16)]
    else [c]

def escape (s : List Char) : List Char :=
  s.flatMap escapeChar

/-- A string with its quotes. -/
def quote (s : String) : List Char :=
  '"' :: escape s.toList ++ ['"']

/-! ## Reading -/

/-- The character that a letter behind a backslash stands for. -/
def charOf? : Char → Option Char
  | '"' => some '"'
  | '\\' => some '\\'
  | '/' => some '/'
  | 'b' => some '\x08'
  | 'f' => some '\x0c'
  | 'n' => some '\n'
  | 'r' => some '\r'
  | 't' => some '\t'
  | _ => none

def hexValue? (c : Char) : Option Nat :=
  if '0' ≤ c ∧ c ≤ '9' then some (c.toNat - '0'.toNat)
  else if 'a' ≤ c ∧ c ≤ 'f' then some (c.toNat - 'a'.toNat + 10)
  else if 'A' ≤ c ∧ c ≤ 'F' then some (c.toNat - 'A'.toNat + 10)
  else none

/-- The unit that four hexadecimal digits write. -/
def unit? (a b c d : Char) : Option Nat := do
  let a ← hexValue? a
  let b ← hexValue? b
  let c ← hexValue? c
  let d ← hexValue? d
  return ((a * 16 + b) * 16 + c) * 16 + d

/-- The four hexadecimal digits behind `\u`. Fewer than four bytes are all read before the end is
noticed; four bytes that are not digits are read together. -/
def readUnit (s : List Char) : Except Fault (Nat × Rest s) :=
  match s with
  | a :: b :: c :: d :: r =>
    match unit? a b c d with
    | some n => .ok (n, ⟨r, by simp; omega⟩)
    | none => .error ⟨.badEscape, byteCount (a :: b :: c :: d :: r) - 4⟩
  | s =>
    if byteCount s < 4 then .error (.atEnd .endInString) else .error ⟨.badEscape, byteCount s - 4⟩

/-- One step inside a quoted string. -/
inductive Piece where
  | close
  | char (c : Char)
  /-- A 16-bit unit, written `\u` and four digits. -/
  | unit (n : Nat)
  /-- A control character, which may not stand for itself. -/
  | control

/-- The character or unit behind a backslash. -/
def readEscape (s : List Char) : Except Fault (Piece × Rest s) :=
  match s with
  | [] => .error (.atEnd .endInString)
  | e :: r =>
    if e = 'u' then
      match readUnit r with
      | .error f => .error f
      | .ok (n, ⟨r', h⟩) => .ok (.unit n, ⟨r', Nat.lt_succ_of_lt h⟩)
    else
      match charOf? e with
      | some c => .ok (.char c, ⟨r, by simp⟩)
      | none => .error (.reading .badEscape (e :: r))

def piece (s : List Char) : Except Fault (Piece × Rest s) :=
  match s with
  | [] => .error (.atEnd .endInString)
  | c :: r =>
    if c = '"' then .ok (.close, ⟨r, by simp⟩)
    else if c = '\\' then
      match readEscape r with
      | .error f => .error f
      | .ok (p, ⟨r', h⟩) => .ok (p, ⟨r', Nat.lt_succ_of_lt h⟩)
    else if isControl c then .ok (.control, ⟨r, by simp⟩)
    else .ok (.char c, ⟨r, by simp⟩)

/-- Units from `D800` to `DBFF` open a pair. -/
def isHighSurrogate (n : Nat) : Bool :=
  0xD800 ≤ n && n < 0xDC00

/-- Units from `DC00` to `DFFF` close a pair. -/
def isLowSurrogate (n : Nat) : Bool :=
  0xDC00 ≤ n && n < 0xE000

/-- The character that a pair of units stands for. -/
def pairChar (high low : Nat) : Char :=
  Char.ofNat ((high - 0xD800) * 0x400 + (low - 0xDC00) + 0x10000)

/-- The second unit of a pair, which has to follow its first unit at once. -/
def readLowSurrogate (s : List Char) : Except Fault (Nat × Rest s) :=
  match s with
  | [] => .error (.atEnd .endInString)
  | c :: r =>
    if c = '\\' then
      match r with
      | [] => .error (.atEnd .endInString)
      | e :: r' =>
        if e = 'u' then
          match readUnit r' with
          | .error f => .error f
          | .ok (n, ⟨r'', h⟩) =>
            if isLowSurrogate n then .ok (n, ⟨r'', by simp; omega⟩)
            else .error (.before .loneSurrogate r'')
        else .error (.reading .cutSurrogate (e :: r'))
    else .error (.reading .cutSurrogate (c :: r))

/-- The rest of a quoted string whose first characters, the last one first, are `acc`. -/
def readQuotedOnto {n : Nat} (acc : List Char) (s : List Char) (bound : s.length ≤ n) :
    Except Fault (String × { r : List Char // r.length < n }) :=
  match piece s with
  | .error f => .error f
  | .ok (.close, ⟨r, h⟩) => .ok (String.ofList acc.reverse, ⟨r, by omega⟩)
  | .ok (.char c, ⟨r, h⟩) => readQuotedOnto (c :: acc) r (by omega)
  | .ok (.control, ⟨r, h⟩) => .error (.before .controlCharacter r)
  | .ok (.unit u, ⟨r, h⟩) =>
    if isLowSurrogate u then .error (.before .loneSurrogate r)
    else if isHighSurrogate u then
      match readLowSurrogate r with
      | .error f => .error f
      | .ok (l, ⟨r', h'⟩) => readQuotedOnto (pairChar u l :: acc) r' (by omega)
    else readQuotedOnto (Char.ofNat u :: acc) r (by omega)
termination_by s.length

def readQuoted (s : List Char) : Except Fault (String × Rest s) :=
  readQuotedOnto [] s (Nat.le_refl _)

/-- Passes over the rest of a quoted string. -/
def skipQuotedWithin {n : Nat} (s : List Char) (bound : s.length ≤ n) :
    Except Fault { r : List Char // r.length < n } :=
  match piece s with
  | .error f => .error f
  | .ok (.close, ⟨r, h⟩) => .ok ⟨r, by omega⟩
  | .ok (.control, _) => .error (.before .controlCharacter s)
  | .ok (.char _, ⟨r, h⟩) => skipQuotedWithin r (by omega)
  | .ok (.unit _, ⟨r, h⟩) => skipQuotedWithin r (by omega)
termination_by s.length

def skipQuoted (s : List Char) : Except Fault (Rest s) :=
  skipQuotedWithin s (Nat.le_refl _)

end JsonEdit.Json
