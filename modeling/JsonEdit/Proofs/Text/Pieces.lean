import Mathlib.Data.List.DropRight

/-!
# Lists cut at a separator

* There is one more piece than there are separators (`length_splitOn`).
* A list without separators that stands inside another one is in one of its pieces, and the other
  pieces do not hang on it (`exists_splitOn_around`).
* The piece behind as many separators as stand in `a` is what `a` ends with and what goes on with
  it, up to the next separator (`getElem?_splitOn_append`).
-/

namespace JsonEdit

variable {α : Type} [DecidableEq α]

theorem length_splitOn (c : α) (s : List α) : (s.splitOn c).length = s.count c + 1 := by
  induction s with
  | nil => rfl
  | cons d s ih =>
    rw [List.splitOn_cons_eq_if_modifyHead]
    by_cases hd : d = c
    · simp [hd, ih]
    · simp [hd, ih]

theorem splitOn_cons_of_ne {c d : α} (hd : d ≠ c) (s : List α) :
    (d :: s).splitOn c = (s.splitOn c).modifyHead (d :: ·) := by
  rw [List.splitOn_cons_eq_if_modifyHead, if_neg (by simpa using hd)]

theorem splitOn_append_of_not_mem {c : α} {x : List α} (hx : c ∉ x) (b : List α) :
    (x ++ b).splitOn c = (b.splitOn c).modifyHead (x ++ ·) := by
  induction x with
  | nil =>
    rw [List.nil_append]
    cases b.splitOn c <;> rfl
  | cons d x ih =>
    rw [List.mem_cons, not_or] at hx
    rw [List.cons_append, splitOn_cons_of_ne (Ne.symm hx.1), ih hx.2, List.modifyHead_modifyHead]
    rfl

/-- A text without separators that stands between `a` and `b` is in one of the pieces, and the other
pieces do not hang on it. -/
theorem exists_splitOn_around (c : α) (a b : List α) :
    ∃ before u e after, ∀ x, c ∉ x →
      (a ++ (x ++ b)).splitOn c = before ++ (u ++ (x ++ e)) :: after := by
  induction a with
  | nil =>
    obtain ⟨e, after, hb⟩ := List.exists_cons_of_ne_nil (List.splitOn_ne_nil c b)
    refine ⟨[], [], e, after, fun x hx => ?_⟩
    rw [List.nil_append, splitOn_append_of_not_mem hx, hb]
    rfl
  | cons d a ih =>
    obtain ⟨before, u, e, after, ih⟩ := ih
    by_cases hd : d = c
    · refine ⟨[] :: before, u, e, after, fun x hx => ?_⟩
      rw [List.cons_append, List.splitOn_cons_eq_if_modifyHead, if_pos (by simpa using hd), ih x hx]
      rfl
    · -- the character goes to the first piece, which holds the text if no piece is before it
      rcases before with _ | ⟨p, before⟩
      · refine ⟨[], d :: u, e, after, fun x hx => ?_⟩
        rw [List.cons_append, splitOn_cons_of_ne hd, ih x hx]
        rfl
      · refine ⟨(d :: p) :: before, u, e, after, fun x hx => ?_⟩
        rw [List.cons_append, splitOn_cons_of_ne hd, ih x hx]
        rfl

theorem head?_splitOn (c : α) (s : List α) :
    (s.splitOn c).head? = some (s.takeWhile (· ≠ c)) := by
  induction s with
  | nil => rfl
  | cons d s ih =>
    by_cases hd : d = c
    · rw [List.splitOn_cons_eq_if_modifyHead, if_pos (by simpa using hd)]
      simp [hd]
    · rw [splitOn_cons_of_ne hd, List.head?_modifyHead, ih]
      simp [hd]

/-- The piece in which `a` ends. -/
theorem getElem?_splitOn_append (c : α) (a b : List α) :
    ((a ++ b).splitOn c)[a.count c]? =
      some (a.rtakeWhile (· ≠ c) ++ b.takeWhile (· ≠ c)) := by
  induction a using List.reverseRecOn generalizing b with
  | nil =>
    rw [List.nil_append, List.count_nil, ← List.head?_eq_getElem?, head?_splitOn,
      List.rtakeWhile_nil, List.nil_append]
  | append_singleton a d ih =>
    rw [List.append_assoc, List.singleton_append, List.rtakeWhile_concat]
    by_cases hd : d = c
    · -- the separator ends all pieces of `a`, so the piece is the first one of `b`
      subst hd
      rw [List.splitOn_append_cons_self, List.count_append, List.count_singleton_self,
        ← length_splitOn, List.getElem?_append_right (Nat.le_refl _), Nat.sub_self,
        ← List.head?_eq_getElem?, head?_splitOn]
      simp
    · have hcount : (a ++ [d]).count c = a.count c := by simp [hd]
      rw [hcount, ih (d :: b)]
      simp [hd]

end JsonEdit
