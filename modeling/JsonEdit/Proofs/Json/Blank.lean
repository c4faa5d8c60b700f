import JsonEdit.Json.Fault
import Mathlib.Data.List.TakeWhile

/-!
# Blanks between the parts of a text

`next?` passes over all blanks and takes the character behind them (`next?_append`); it finds none
just where a text is blank to its end (`next?_eq_none_iff`).
-/

namespace JsonEdit.Json

/-- Nothing but blanks. -/
def AllBlank (s : List Char) : Prop :=
  ∀ c ∈ s, isBlank c = true

theorem next?_append {bs : List Char} {c : Char} (hb : AllBlank bs) (hc : isBlank c = false)
    (r : List Char) : ∃ h, next? (bs ++ c :: r) = some (c, ⟨r, h⟩) := by
  have hd : (bs ++ c :: r).dropWhile isBlank = c :: r := by
    rw [List.dropWhile_append_of_pos hb, List.dropWhile_cons_of_neg (by simp [hc])]
  refine ⟨by simp; omega, ?_⟩
  unfold next?
  split
  · next h =>
    rw [hd] at h
    cases h
  · next d r' h =>
    rw [hd] at h
    cases h
    rfl

theorem next?_cons {c : Char} (hc : isBlank c = false) (r : List Char) :
    ∃ h, next? (c :: r) = some (c, ⟨r, h⟩) :=
  next?_append (List.forall_mem_nil _) hc r

theorem next?_eq_none_iff {s : List Char} : next? s = none ↔ AllBlank s := by
  unfold next? AllBlank
  rw [← List.dropWhile_eq_nil_iff]
  split
  · next h => simp [h]
  · next c r h => simp [h]

end JsonEdit.Json
