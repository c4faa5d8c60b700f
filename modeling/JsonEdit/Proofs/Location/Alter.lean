import JsonEdit.Proofs.Location.Parts

/-!
# Changing the part at a location

* `v.alter f l` is `v` with `f` applied to the part at `l`. Replacing is a case of it, and every
  replacement by a value that was made from the old one is of this form (`put_eq_alter`).
* `c.store s v` is the container `c` with `v` at one step inside it; a new key comes last.
* Main statement: what is stored at two locations, neither of them above the other, may be stored in
  either order, unless both are new keys of one object (`alter_store_comm`).
-/

namespace JsonEdit.Value

/-! ## One step -/

/-- A container with `v` at one step inside it. -/
def store : Value → Step → Value → Value
  | .object ms, .key k, v => .object (Members.put k v ms)
  | .array vs, .index i, v => .array (vs.set i v)
  | c, _, _ => c

/-- The container has a place for a value at this step: objects for every key, arrays for the
indices below their length. -/
def HasPlace : Value → Step → Prop
  | .object _, .key _ => True
  | .array vs, .index i => i < vs.length
  | _, _ => False

/-- Two steps lead to keys that an object does not have. -/
def LacksBoth (c : Value) (s s' : Step) : Prop :=
  ∃ ms k k', c = .object ms ∧ s = .key k ∧ s' = .key k' ∧ k ∉ Members.keys ms ∧
    k' ∉ Members.keys ms

variable {c : Value} {s s' : Step} {v w : Value} {f g : Value → Value}

theorem alterChild_comm (h : s ≠ s') (f g : Value → Value) (c : Value) :
    (c.alterChild f s).alterChild g s' = (c.alterChild g s').alterChild f s := by
  cases c with
  | array vs =>
    rcases s with k | i
    · rcases s' with k' | j <;> rfl
    rcases s' with k' | j
    · rfl
    have hij : i ≠ j := fun e => h (e ▸ rfl)
    simp only [alterChild, array.injEq]
    apply List.ext_getElem?
    intro n
    simp only [List.getElem?_modify]
    by_cases hi : i = n
    · have hj : ¬ j = n := fun e => hij (hi.trans e.symm)
      simp [hi, hj]
    · simp [hi]
  | object ms =>
    rcases s with k | i
    · rcases s' with k' | j
      · have hk : k ≠ k' := fun e => h (e ▸ rfl)
        simp only [alterChild, Members.alter_comm hk]
      · rfl
    · rcases s' with k' | j <;> rfl
  | _ => rcases s with k | i <;> rcases s' with k' | j <;> rfl

theorem store_alterChild_comm (h : s ≠ s') (f : Value → Value) (c v : Value) :
    (c.alterChild f s).store s' v = (c.store s' v).alterChild f s := by
  cases c with
  | array vs =>
    rcases s with k | i
    · rcases s' with k' | j <;> rfl
    rcases s' with k' | j
    · rfl
    have hij : i ≠ j := fun e => h (e ▸ rfl)
    simp only [alterChild, store, array.injEq]
    apply List.ext_getElem?
    intro n
    simp only [List.getElem?_modify, List.getElem?_set, List.length_modify]
    by_cases hj : j = n
    · have hi : ¬ i = n := fun e => hij (e.trans hj.symm)
      simp [hi, hj]
    · simp [hj]
  | object ms =>
    rcases s with k | i
    · rcases s' with k' | j
      · have hk : k ≠ k' := fun e => h (e ▸ rfl)
        simp only [alterChild, store, Members.put_alter_comm hk]
      · rfl
    · rcases s' with k' | j <;> rfl
  | _ => rcases s with k | i <;> rcases s' with k' | j <;> rfl

theorem store_comm (h : s ≠ s') (hnew : ¬ c.LacksBoth s s') (v w : Value) :
    (c.store s v).store s' w = (c.store s' w).store s v := by
  cases c with
  | array vs =>
    rcases s with k | i
    · rcases s' with k' | j <;> rfl
    rcases s' with k' | j
    · rfl
    have hij : i ≠ j := fun e => h (e ▸ rfl)
    simp only [store, List.set_comm _ _ hij]
  | object ms =>
    rcases s with k | i
    · rcases s' with k' | j
      · have hk : k ≠ k' := fun e => h (e ▸ rfl)
        have hms : k ∈ Members.keys ms ∨ k' ∈ Members.keys ms := by
          rw [Decidable.or_iff_not_imp_left]
          intro hk
          refine Decidable.byContradiction fun hk' => ?_
          exact hnew ⟨ms, k, k', rfl, rfl, rfl, hk, hk'⟩
        simp only [store, Members.put_comm hk v w hms]
      · rfl
    · rcases s' with k' | j <;> rfl
  | _ => rcases s with k | i <;> rcases s' with k' | j <;> rfl

/-! ## Whole locations -/

/-- A document with `f` applied to the part at a location. -/
def alter (f : Value → Value) : Value → Location → Value
  | v, [] => f v
  | v, s :: l => v.alterChild (fun c => c.alter f l) s

theorem put_eq_alter {l : Location} {t : Value} (h : t.get? l = some c) :
    t.put l (f c) = t.alter f l := by
  induction l generalizing t with
  | nil =>
    obtain rfl : t = c := Option.some.inj h
    rfl
  | cons s l ih =>
    rw [get?, Option.bind_eq_some_iff] at h
    obtain ⟨d, hd, h⟩ := h
    apply alterChild_congr
    intro e he
    obtain rfl : d = e := Option.some.inj (hd.symm.trans he)
    exact ih h

/-- Both locations end with keys that one object does not have. -/
def LacksBothAt (t : Value) (b b' : Location) (s s' : Step) : Prop :=
  b = b' ∧ ∃ c, t.get? b = some c ∧ c.LacksBoth s s'

/-- Values may be stored at two locations in either order, unless both are new keys of one
object. -/
theorem alter_store_comm {t : Value} {b b' : Location} (h : ¬ b ++ [s] <+: b' ++ [s'])
    (h' : ¬ b' ++ [s'] <+: b ++ [s]) (hnew : ¬ t.LacksBothAt b b' s s') (v w : Value) :
    (t.alter (·.store s v) b).alter (·.store s' w) b' =
      (t.alter (·.store s' w) b').alter (·.store s v) b := by
  induction b generalizing t b' with
  | nil =>
    cases b' with
    | nil =>
      have hs : s ≠ s' := by
        rintro rfl
        exact h (List.prefix_refl _)
      exact store_comm hs (fun hc => hnew ⟨rfl, t, rfl, hc⟩) v w
    | cons x b' =>
      -- the first location ends where the second one still goes on
      have hs : x ≠ s := by
        rintro rfl
        exact h (List.prefix_append [x] _)
      exact (store_alterChild_comm hs _ t v).symm
  | cons y b ih =>
    cases b' with
    | nil =>
      have hs : y ≠ s' := by
        rintro rfl
        exact h' (List.prefix_append [y] _)
      exact store_alterChild_comm hs _ t w
    | cons x b' =>
      by_cases hyx : y = x
      · subst hyx
        rw [List.cons_append, List.cons_append, List.cons_prefix_cons] at h h'
        show (t.alterChild _ y).alterChild _ y = (t.alterChild _ y).alterChild _ y
        rw [alterChild_alterChild, alterChild_alterChild]
        apply alterChild_congr
        intro c hc
        refine ih (fun e => h ⟨rfl, e⟩) (fun e => h' ⟨rfl, e⟩) ?_
        rintro ⟨hb, d, hd, hlacks⟩
        refine hnew ⟨congrArg (y :: ·) hb, d, ?_, hlacks⟩
        rw [get?_cons_of_child? hc]
        exact hd
      · exact alterChild_comm hyx _ _ t

end JsonEdit.Value
