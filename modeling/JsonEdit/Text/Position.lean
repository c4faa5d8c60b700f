/-!
# Places in a text

* Texts are measured in bytes of their encoding; a position is a line, counted from one, and the
  number of bytes read of that line.
* `Position.after bytes` is the position reached when `bytes` have been read.
-/

namespace JsonEdit

/-- The number of bytes that `s` takes when it is stored. -/
def byteCount (s : List Char) : Nat :=
  s.foldr (fun c n => c.utf8Size + n) 0

@[simp] theorem byteCount_nil : byteCount [] = 0 := rfl

@[simp] theorem byteCount_cons (c : Char) (s : List Char) :
    byteCount (c :: s) = c.utf8Size + byteCount s := rfl

theorem byteCount_append (s t : List Char) : byteCount (s ++ t) = byteCount s + byteCount t := by
  induction s with
  | nil => simp
  | cons c s ih => simp [ih, Nat.add_assoc]

theorem byteCount_le_of_suffix {r s : List Char} (h : r <:+ s) : byteCount r ≤ byteCount s := by
  obtain ⟨w, rfl⟩ := h
  rw [byteCount_append]
  exact Nat.le_add_left ..

theorem length_le_byteCount (s : List Char) : s.length ≤ byteCount s := by
  induction s with
  | nil => exact Nat.le_refl 0
  | cons c s ih =>
    have := c.utf8Size_pos
    rw [List.length_cons, byteCount_cons]
    omega

structure Position where
  line : Nat
  column : Nat
  deriving DecidableEq, Repr

namespace Position

/-- The byte that ends a line. -/
def lineFeed : UInt8 := 10

def start : Position := ⟨1, 0⟩

def next (p : Position) (b : UInt8) : Position :=
  if b = lineFeed then ⟨p.line + 1, 0⟩ else ⟨p.line, p.column + 1⟩

def after (bytes : List UInt8) : Position :=
  bytes.foldl next start

/-- The position of a byte offset in a text. -/
def ofOffset (text : String) (offset : Nat) : Position :=
  after (text.toUTF8.data.toList.take offset)

theorem after_append_singleton (bytes : List UInt8) (b : UInt8) :
    after (bytes ++ [b]) = (after bytes).next b := by
  simp [after]

end Position

end JsonEdit
