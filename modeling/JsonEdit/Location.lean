import JsonEdit.Members
import JsonEdit.Value

/-!
# Locations in a document

* A location is a list of steps from the root, each to the member of a key or to an element of an
  array.
* `get?` looks a location up and `put` replaces what is there; `put` changes nothing where the
  location does not exist.
* Main statements: `get?_append`, `get?_put`, `get?_put_append`, `get?_put_of_disjoint`, `put_get?`,
  `put_put`, `put_append`.
-/

namespace JsonEdit

inductive Step where
  | key (name : String)
  | index (i : Nat)
  deriving DecidableEq, Repr

abbrev Location := List Step

namespace Value

/-- The part of a value that one step leads to. -/
def child? : Value → Step → Option Value
  | .object ms, .key k => Members.find? k ms
  | .array vs, .index i => vs[i]?
  | _, _ => none

/-- A value with `f` applied to the part that one step leads to. -/
def alterChild (f : Value → Value) : Value → Step → Value
  | .object ms, .key k => .object (Members.alter k f ms)
  | .array vs, .index i => .array (vs.modify i f)
  | v, _ => v

def get? (v : Value) : Location → Option Value
  | [] => some v
  | s :: l => (v.child? s).bind (·.get? l)

/-- `v` with `w` stored at a location. -/
def put (v : Value) (l : Location) (w : Value) : Value :=
  match l with
  | [] => w
  | s :: l => v.alterChild (·.put l w) s

/-! ## One step -/

theorem child?_alterChild (f : Value → Value) (v : Value) (s : Step) :
    (v.alterChild f s).child? s = (v.child? s).map f := by
  cases v <;> cases s <;> simp [alterChild, child?, Members.find?_alter]

theorem child?_alterChild_of_ne (f : Value → Value) (v : Value) {s s' : Step} (h : s' ≠ s) :
    (v.alterChild f s).child? s' = v.child? s' := by
  cases v with
  | array vs =>
    cases s with
    | key k => rfl
    | index i =>
      cases s' with
      | key k => rfl
      | index j =>
        have hij : i ≠ j := fun e => h (e ▸ rfl)
        simp [alterChild, child?, hij]
  | object ms =>
    cases s with
    | index i => rfl
    | key k =>
      cases s' with
      | index j => rfl
      | key k' =>
        have hk : k' ≠ k := fun e => h (e ▸ rfl)
        simp [alterChild, child?, Members.find?_alter, hk]
  | _ => cases s <;> rfl

theorem alterChild_congr {f g : Value → Value} {v : Value} {s : Step}
    (h : ∀ c, v.child? s = some c → f c = g c) : v.alterChild f s = v.alterChild g s := by
  cases v with
  | array vs =>
    cases s with
    | key k => rfl
    | index i =>
      simp only [alterChild, array.injEq]
      apply List.ext_getElem?
      intro j
      rw [List.getElem?_modify, List.getElem?_modify]
      by_cases hj : i = j
      · subst hj
        cases hi : vs[i]? with
        | none => rfl
        | some c => simp [h c hi]
      · simp [hj]
  | object ms =>
    cases s with
    | index i => rfl
    | key k => simp only [alterChild, Members.alter_congr h]
  | _ => cases s <;> rfl

theorem alterChild_id (v : Value) (s : Step) : v.alterChild id s = v := by
  cases v with
  | array vs =>
    cases s with
    | key k => rfl
    | index i => simp [alterChild]
  | object ms =>
    cases s with
    | index i => rfl
    | key k => simp [alterChild, Members.alter_id]
  | _ => cases s <;> rfl

theorem alterChild_eq_self {f : Value → Value} {v c : Value} {s : Step} (h : v.child? s = some c)
    (hf : f c = c) : v.alterChild f s = v := by
  rw [alterChild_congr (g := id), alterChild_id]
  intro d hd
  rw [h, Option.some.injEq] at hd
  subst hd
  exact hf

theorem alterChild_alterChild (f g : Value → Value) (v : Value) (s : Step) :
    (v.alterChild f s).alterChild g s = v.alterChild (g ∘ f) s := by
  cases v with
  | array vs =>
    cases s with
    | key k => rfl
    | index i => simp [alterChild, List.modify_modify_eq]
  | object ms =>
    cases s with
    | index i => rfl
    | key k => simp only [alterChild, Members.alter_alter]
  | _ => cases s <;> rfl

/-! ## Whole locations -/

theorem get?_append (v : Value) (l m : Location) :
    v.get? (l ++ m) = (v.get? l).bind (·.get? m) := by
  induction l generalizing v with
  | nil => rfl
  | cons s l ih =>
    simp only [List.cons_append, get?]
    cases v.child? s with
    | none => rfl
    | some c => exact ih c

theorem get?_put {v c : Value} {l : Location} (w : Value) (h : v.get? l = some c) :
    (v.put l w).get? l = some w := by
  induction l generalizing v with
  | nil => rfl
  | cons s l ih =>
    simp only [get?, Option.bind_eq_some_iff] at h
    obtain ⟨d, hd, h⟩ := h
    simp only [put, get?, child?_alterChild, hd, Option.map_some, Option.bind_some]
    exact ih h

theorem put_get? {v c : Value} {l : Location} (h : v.get? l = some c) : v.put l c = v := by
  induction l generalizing v with
  | nil => simpa [get?, put] using h.symm
  | cons s l ih =>
    simp only [get?, Option.bind_eq_some_iff] at h
    obtain ⟨d, hd, h⟩ := h
    exact alterChild_eq_self hd (ih h)

theorem put_put (v : Value) (l : Location) (w w' : Value) : (v.put l w).put l w' = v.put l w' := by
  induction l generalizing v with
  | nil => rfl
  | cons s l ih =>
    simp only [put, alterChild_alterChild]
    congr 1
    funext c
    exact ih c

/-- Above what is stored, storing goes on inside. -/
theorem get?_put_append (v : Value) (l m : Location) (w : Value) :
    (v.put (l ++ m) w).get? l = (v.get? l).map (·.put m w) := by
  induction l generalizing v with
  | nil => rfl
  | cons s l ih =>
    simp only [List.cons_append, put, get?, child?_alterChild]
    cases v.child? s with
    | none => rfl
    | some c => exact ih c

/-- What lies beside the location stored at stays as it is. -/
theorem get?_put_of_disjoint (v : Value) {l m : Location} (w : Value) (h : ¬ l <+: m)
    (h' : ¬ m <+: l) : (v.put l w).get? m = v.get? m := by
  induction l generalizing v m with
  | nil => exact absurd List.nil_prefix h
  | cons s l ih =>
    cases m with
    | nil => exact absurd List.nil_prefix h'
    | cons s' m =>
      simp only [put, get?]
      by_cases hs : s' = s
      · subst hs
        rw [List.cons_prefix_cons] at h h'
        rw [child?_alterChild]
        cases v.child? s' with
        | none => rfl
        | some c => exact ih c (fun e => h ⟨rfl, e⟩) (fun e => h' ⟨rfl, e⟩)
      · rw [child?_alterChild_of_ne _ _ hs]

theorem put_append {v c : Value} {l : Location} (h : v.get? l = some c) (m : Location)
    (w : Value) : v.put (l ++ m) w = v.put l (c.put m w) := by
  induction l generalizing v with
  | nil => simp only [get?, Option.some.injEq] at h; rw [h]; rfl
  | cons s l ih =>
    simp only [get?, Option.bind_eq_some_iff] at h
    obtain ⟨d, hd, h⟩ := h
    refine alterChild_congr fun e he => ?_
    rw [hd, Option.some.injEq] at he
    subst he
    exact ih h

end Value

end JsonEdit
