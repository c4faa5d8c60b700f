import JsonEdit.Location

/-!
# The parts of a document

* `v.Every Q`: all parts of `v`, itself included, satisfy `Q`. A property of documents is mostly of
  this form, and storing keeps it as soon as what is stored has it (`Every.put`).
* `v.Distinct`: no object inside `v` repeats a key. Such a document is known by its containers and
  what they lead to (`eq_of_sameOutline`).
-/

namespace JsonEdit

namespace Value

/-- All parts of `v`, itself included, satisfy `Q`. -/
def Every (Q : Value → Prop) (v : Value) : Prop :=
  ∀ l c, v.get? l = some c → Q c

variable {Q : Value → Prop} {v w c : Value}

theorem get?_cons_of_child? {s : Step} (h : v.child? s = some c) (l : Location) :
    v.get? (s :: l) = c.get? l := by
  rw [Value.get?, h, Option.bind_some]

theorem get?_singleton (v : Value) (s : Step) : v.get? [s] = v.child? s := by
  simp only [Value.get?, Option.bind_fun_some]

theorem put_key {k : String} {ms : List (String × Value)} (h : k ∈ Members.keys ms) (v : Value) :
    (object ms).put [.key k] v = .object (Members.put k v ms) :=
  congrArg object (Members.put_eq_alter h).symm

theorem Every.self (h : v.Every Q) : Q v :=
  h [] v rfl

theorem Every.child {s : Step} (h : v.Every Q) (hc : v.child? s = some c) : c.Every Q := by
  intro l d hd
  refine h (s :: l) d ?_
  rw [get?_cons_of_child? hc]
  exact hd

theorem Every.get? {l : Location} (h : v.Every Q) (hc : v.get? l = some c) : c.Every Q := by
  intro m d hd
  refine h (l ++ m) d ?_
  rw [get?_append, hc]
  exact hd

theorem every_iff_child : v.Every Q ↔ Q v ∧ ∀ s c, v.child? s = some c → c.Every Q := by
  constructor
  · intro h
    exact ⟨h.self, fun s c hc => h.child hc⟩
  · rintro ⟨h, hchild⟩ l c hc
    cases l with
    | nil =>
      rw [Value.get?, Option.some.injEq] at hc
      exact hc ▸ h
    | cons s l =>
      rw [Value.get?, Option.bind_eq_some_iff] at hc
      obtain ⟨d, hd, hc⟩ := hc
      exact hchild s d hd l c hc

theorem every_scalar (ho : v.kind ≠ .object) (ha : v.kind ≠ .array) : v.Every Q ↔ Q v := by
  rw [every_iff_child]
  refine and_iff_left fun s c hc => ?_
  rcases v with _ | _ | _ | _ | vs | ms
  · simp [child?] at hc
  · simp [child?] at hc
  · simp [child?] at hc
  · simp [child?] at hc
  · exact absurd rfl ha
  · exact absurd rfl ho

theorem every_array {vs : List Value} :
    (array vs).Every Q ↔ Q (.array vs) ∧ ∀ w ∈ vs, w.Every Q := by
  rw [every_iff_child]
  refine and_congr_right fun _ => ⟨fun h w hw => ?_, fun h s c hc => ?_⟩
  · obtain ⟨i, hi⟩ := List.mem_iff_getElem?.1 hw
    exact h (.index i) w hi
  · cases s with
    | key k => simp [child?] at hc
    | index i => exact h c (List.mem_iff_getElem?.2 ⟨i, hc⟩)

theorem every_object {ms : List (String × Value)} :
    (object ms).Every Q ↔
      Q (.object ms) ∧ ∀ k w, Members.find? k ms = some w → w.Every Q := by
  rw [every_iff_child]
  refine and_congr_right fun _ => ⟨fun h k w hw => h (.key k) w hw, fun h s c hc => ?_⟩
  cases s with
  | key k => exact h k c hc
  | index i => simp [child?] at hc

theorem every_object_of_mem {ms : List (String × Value)} (h : Q (.object ms))
    (hms : ∀ m ∈ ms, m.2.Every Q) : (object ms).Every Q :=
  every_object.2 ⟨h, fun k w hw => hms (k, w) (Members.mem_of_find? hw)⟩

/-- A property that only looks at the keys of an object and the number of items of an array. -/
def IsOuter (Q : Value → Prop) : Prop :=
  ∀ f v s, Q v → Q (v.alterChild f s)

theorem Every.put (hQ : IsOuter Q) {l : Location} (hv : v.Every Q) (hw : w.Every Q) :
    (v.put l w).Every Q := by
  induction l generalizing v with
  | nil => exact hw
  | cons s l ih =>
    rw [Value.put, every_iff_child]
    refine ⟨hQ _ _ _ hv.self, fun s' c hc => ?_⟩
    by_cases hs : s' = s
    · subst hs
      rw [child?_alterChild, Option.map_eq_some_iff] at hc
      obtain ⟨d, hd, rfl⟩ := hc
      exact ih (hv.child hd)
    · rw [child?_alterChild_of_ne _ _ hs] at hc
      exact hv.child hc

/-! ## Distinct keys -/

/-- The keys of an object differ from each other. -/
def KeysDiffer : Value → Prop
  | .object ms => (Members.keys ms).Nodup
  | _ => True

/-- No object of a document repeats a key. -/
def Distinct (v : Value) : Prop :=
  v.Every KeysDiffer

theorem isOuter_keysDiffer : IsOuter KeysDiffer := by
  intro f v s h
  cases v with
  | object ms =>
    cases s with
    | index i => exact h
    | key k =>
      show (Members.keys (Members.alter k f ms)).Nodup
      rw [Members.keys_alter]
      exact h
  | _ => cases s <;> trivial

theorem Distinct.put {l : Location} (hv : v.Distinct) (hw : w.Distinct) : (v.put l w).Distinct :=
  Every.put isOuter_keysDiffer hv hw

/-! ## Outlines -/

/-- Two containers of one kind with the same keys, or with the same number of items. -/
inductive SameOutline : Value → Value → Prop where
  | array {vs ws : List Value} (h : vs.length = ws.length) : SameOutline (.array vs) (.array ws)
  | object {ms ns : List (String × Value)} (h : Members.keys ms = Members.keys ns) :
    SameOutline (.object ms) (.object ns)

theorem SameOutline.eq (h : SameOutline v w) (hv : v.KeysDiffer)
    (hchild : ∀ s, v.child? s = w.child? s) : v = w := by
  cases h with
  | @array vs ws hlen =>
    congr 1
    exact List.ext_getElem? fun i => hchild (.index i)
  | @object ms ns hkeys =>
    congr 1
    exact Members.eq_of_find?_eq hv hkeys fun k => hchild (.key k)

theorem SameOutline.symm (h : SameOutline v w) : SameOutline w v := by
  cases h with
  | array h => exact .array h.symm
  | object h => exact .object h.symm

theorem SameOutline.trans {u : Value} (h : SameOutline v w) (h' : SameOutline w u) :
    SameOutline v u := by
  cases h with
  | array h =>
    cases h' with
    | array h' => exact .array (h.trans h')
  | object h =>
    cases h' with
    | object h' => exact .object (h.trans h')

theorem SameOutline.alterChild {s : Step} (f : Value → Value) (hc : v.child? s = some c) :
    SameOutline v (v.alterChild f s) := by
  cases v with
  | array vs =>
    cases s with
    | key k => simp [child?] at hc
    | index i => exact .array (List.length_modify ..).symm
  | object ms =>
    cases s with
    | index i => simp [child?] at hc
    | key k => exact .object (Members.keys_alter ..).symm
  | _ => cases s <;> cases hc

theorem SameOutline.child?_isSome (h : SameOutline v w) {s : Step} (hc : v.child? s = some c) :
    ∃ d, w.child? s = some d := by
  cases h with
  | @array vs ws hlen =>
    cases s with
    | key k => simp [child?] at hc
    | index i =>
      obtain ⟨hi, -⟩ := List.getElem?_eq_some_iff.1 hc
      exact ⟨ws.get ⟨i, hlen ▸ hi⟩, List.getElem?_eq_getElem _⟩
  | @object ms ns hkeys =>
    cases s with
    | index i => simp [child?] at hc
    | key k =>
      have hk : k ∈ Members.keys ns := hkeys ▸ Members.mem_keys_of_find? hc
      exact Members.exists_find?_of_mem_keys hk

end Value

namespace Location

/-- `m` leads to a container around what `l` leads to. -/
def Encloses (m l : Location) : Prop :=
  ∃ s r, l = m ++ s :: r

theorem Encloses.cons {m l : Location} (h : Encloses m l) (s : Step) :
    Encloses (s :: m) (s :: l) := by
  obtain ⟨t, r, rfl⟩ := h
  exact ⟨t, r, rfl⟩

theorem encloses_nil (s : Step) (l : Location) : Encloses [] (s :: l) :=
  ⟨s, l, rfl⟩

theorem Encloses.of_cons {m l : Location} {s s' : Step} (h : Encloses (s' :: m) (s :: l)) :
    s' = s ∧ Encloses m l := by
  obtain ⟨t, r, h⟩ := h
  rw [List.cons_append, List.cons.injEq] at h
  exact ⟨h.1.symm, t, r, h.2⟩

end Location

open Location (Encloses)

/-- Documents with distinct keys are equal when they differ nowhere but around `l`, and the
containers around `l` have the same keys and lengths. -/
theorem Value.eq_of_sameOutline {v w : Value} {l : Location} (hv : v.Distinct)
    (houter : ∀ m, Encloses m l → ∃ c d, v.get? m = some c ∧ w.get? m = some d ∧ SameOutline c d)
    (hother : ∀ m, ¬ Encloses m l → v.get? m = w.get? m) : v = w := by
  induction l generalizing v w with
  | nil =>
    have h := hother [] (by rintro ⟨s, r, h⟩; cases h)
    exact Option.some.inj h
  | cons s l ih =>
    obtain ⟨c, d, hc, hd, h⟩ := houter [] (Location.encloses_nil s l)
    obtain rfl : v = c := Option.some.inj hc
    obtain rfl : w = d := Option.some.inj hd
    refine h.eq hv.self fun s' => ?_
    by_cases hs : s' = s
    · subst hs
      cases hc : v.child? s' with
      | none =>
        cases hd : w.child? s' with
        | none => rfl
        | some d =>
          obtain ⟨c, hc'⟩ := h.symm.child?_isSome hd
          rw [hc] at hc'
          simp at hc'
      | some c =>
        obtain ⟨d, hd⟩ := h.child?_isSome hc
        rw [hd, ih (hv.child hc) (w := d)]
        · intro m hm
          simpa only [get?_cons_of_child? hc, get?_cons_of_child? hd] using houter _ (hm.cons s')
        · intro m hm
          have := hother (s' :: m) fun e => hm e.of_cons.2
          rwa [get?_cons_of_child? hc, get?_cons_of_child? hd] at this
    · have := hother [s'] fun e => hs e.of_cons.1
      simpa [get?] using this

end JsonEdit
