import JsonEdit.Proofs.Edit.Address

/-!
# Why a path cannot be set

* `Obstacle` lists what can stop a path at one of its segments, with the error that tells it. It
  speaks of the value that the segment meets and of whether other segments follow, and of nothing
  else.
* `Path.StoppedAt`: the segments before one can be followed, and there an obstacle stands.
* Main statement: `set_eq_error_iff`. An edit fails just when an obstacle stands on its path, and
  the error is that of the first one.
-/

namespace JsonEdit

/-- What stops the path `text` at segment `n`, which is `s`, before the segments `rest`: the value
met, and the error. -/
inductive Obstacle (text : String) (n : Nat) (s : Segment) (rest : List Segment) :
    Value → EditError → Prop where
  | missing {ms : List (String × Value)} (hm : s.name ∉ Members.keys ms)
    (hneeded : rest ≠ [] ∨ s.index ≠ none) :
    Obstacle text n s rest (.object ms) (.notFound text n s.name)
  | notObject {c : Value} (hrest : rest ≠ []) (hc : c.kind ≠ .object) :
    Obstacle text n s rest c (.mismatch text n .object c.kind)
  | notArray {ms : List (String × Value)} {c : Value} (hs : s.index ≠ none)
    (hm : Members.find? s.name ms = some c) (hc : c.kind ≠ .array) :
    Obstacle text n s rest (.object ms) (.mismatch text n .array c.kind)
  | notContainer {c : Value} (hrest : rest = []) (hobject : c.kind ≠ .object)
    (harray : c.kind ≠ .array) :
    Obstacle text n s rest c (.mismatch text n .container c.kind)
  | elementPastEnd {ms : List (String × Value)} {vs : List Value} {i : Nat}
    (hs : s.index = some i) (hm : Members.find? s.name ms = some (.array vs))
    (hi : vs.length ≤ i) :
    Obstacle text n s rest (.object ms) (.outOfRange text n i vs.length)
  | itemPastEnd {vs : List Value} {i : Nat} (hrest : rest = []) (hs : s.index = none)
    (hn : SpellsIndex s.name i) (hi : vs.length ≤ i) :
    Obstacle text n s rest (.array vs) (.outOfRange text n i vs.length)
  | notIndex {vs : List Value} (hrest : rest = []) (hs : s.index = none)
    (hn : ∀ i, ¬ SpellsIndex s.name i) :
    Obstacle text n s rest (.array vs) (.unfit text n (.notAnIndex s.name))
  | indexedItem {vs : List Value} (hrest : rest = []) (hs : s.index ≠ none) :
    Obstacle text n s rest (.array vs) (.unfit text n (.notApplicable s .array))

/-- The path `p` meets an obstacle at its segment `n`: the segments before lead to a value where
`e` has to be reported. -/
def Path.StoppedAt (p : Path) (t : Value) (n : Nat) (e : EditError) : Prop :=
  ∃ before s rest c, p.segments = before ++ s :: rest ∧ before.length = n ∧
    t.get? (before.flatMap Segment.steps) = some c ∧ Obstacle p.text n s rest c e

variable {text : String} {n : Nat} {s : Segment} {rest : List Segment} {t c v : Value} {p : Path}
  {e : EditError}

theorem Obstacle.segment? (h : Obstacle text n s rest c e) : e.segment? = some n := by
  cases h <;> rfl

theorem Obstacle.path? (h : Obstacle text n s rest c e) : e.path? = some text := by
  cases h <;> rfl

/-! ## Segments that others follow -/

theorem elementAt_eq_error_iff {vs : List Value} {i : Nat} :
    elementAt text n vs i = .error e ↔ vs.length ≤ i ∧ e = .outOfRange text n i vs.length := by
  rw [elementAt]
  by_cases hi : i < vs.length
  · simp [List.getElem?_eq_getElem hi, Nat.not_le.2 hi]
  · rw [List.getElem?_eq_none (Nat.le_of_not_lt hi)]
    simp [Nat.le_of_not_lt hi, eq_comm]

theorem descend_eq_error_iff (hrest : rest ≠ []) :
    descend text n s c = .error e ↔ Obstacle text n s rest c e := by
  constructor
  · intro h
    by_cases hk : c.kind = .object
    · obtain ⟨ms, rfl⟩ := Value.kind_eq_object_iff.1 hk
      rcases hm : Members.find? s.name ms with _ | d
      · rw [descend_missing hm, Except.error.injEq] at h
        exact h ▸ .missing (Members.find?_eq_none_iff.1 hm) (.inl hrest)
      · rcases hs : s.index with _ | i
        · rw [descend_plain hm hs] at h
          simp at h
        · by_cases hd : d.kind = .array
          · obtain ⟨vs, rfl⟩ := Value.kind_eq_array_iff.1 hd
            rw [descend_indexed hm hs, map_eq_error_iff, elementAt_eq_error_iff] at h
            obtain ⟨hi, rfl⟩ := h
            exact .elementPastEnd hs hm hi
          · rw [descend_notArray hm hs hd, Except.error.injEq] at h
            exact h ▸ .notArray (by simp [hs]) hm hd
    · rw [descend_notObject hk, Except.error.injEq] at h
      exact h ▸ .notObject hrest hk
  · intro h
    cases h with
    | missing hm hneeded => exact descend_missing (Members.find?_eq_none_iff.2 hm)
    | notObject _ hc => exact descend_notObject hc
    | notArray hs hm hc =>
      obtain ⟨i, hi⟩ := Option.ne_none_iff_exists'.1 hs
      exact descend_notArray hm hi hc
    | elementPastEnd hs hm hi =>
      rw [descend_indexed hm hs, map_eq_error_iff, elementAt_eq_error_iff]
      exact ⟨hi, rfl⟩
    | notContainer h => exact absurd h hrest
    | itemPastEnd h => exact absurd h hrest
    | notIndex h => exact absurd h hrest
    | indexedItem h => exact absurd h hrest

theorem descendAll_eq_error_iff {ss : List Segment} :
    descendAll text n ss t = .error e ↔
      ∃ before s rest c, ss = before ++ s :: rest ∧
        t.get? (before.flatMap Segment.steps) = some c ∧
        descend text (n + before.length) s c = .error e := by
  induction ss generalizing n t with
  | nil => simp [descendAll]
  | cons s ss ih =>
    rw [descendAll]
    constructor
    · intro h
      rcases hd : descend text n s t with f | ⟨l, c⟩
      · rw [hd, Except.error.injEq] at h
        subst h
        exact ⟨[], s, ss, t, rfl, rfl, hd⟩
      · rw [hd] at h
        obtain ⟨rfl, hc⟩ := descend_eq_ok_iff.1 hd
        obtain ⟨before, s', rest, d, rfl, hd', he⟩ := ih.1 (map_eq_error_iff.1 h)
        refine ⟨s :: before, s', rest, d, rfl, ?_, ?_⟩
        · rw [List.flatMap_cons, Value.get?_append, hc]
          exact hd'
        · rw [List.length_cons, ← Nat.add_assoc, Nat.add_right_comm]
          exact he
    · rintro ⟨before, s', rest, d, hss, hd, he⟩
      cases before with
      | nil =>
        obtain ⟨rfl, rfl⟩ := List.cons.inj hss
        obtain rfl : t = d := Option.some.inj hd
        rw [show descend text n s t = .error e from he]
      | cons s₁ before =>
        obtain ⟨rfl, rfl⟩ := List.cons.inj hss
        rw [List.flatMap_cons, Value.get?_append, Option.bind_eq_some_iff] at hd
        obtain ⟨c, hc, hd⟩ := hd
        rw [descend_eq_ok_iff.2 ⟨rfl, hc⟩]
        refine map_eq_error_iff.2 (ih.2 ⟨before, s', rest, d, rfl, hd, ?_⟩)
        rw [List.length_cons, ← Nat.add_assoc, Nat.add_right_comm] at he
        exact he

/-! ## The last segment -/

theorem replaceElement_eq_error_iff {vs : List Value} {i : Nat} :
    Target.replaceElement p vs i v = .error e ↔
      vs.length ≤ i ∧ e = .outOfRange p.text p.lastPosition i vs.length := by
  rw [Target.replaceElement, map_eq_error_iff, elementAt_eq_error_iff]

theorem assign_object_eq_error_iff {b : Location} {ms : List (String × Value)} :
    Target.assign ⟨p, b, .object ms⟩ v = .error e ↔
      Obstacle p.text p.lastPosition p.last [] (.object ms) e := by
  constructor
  · intro h
    rcases hs : p.last.index with _ | i
    · rw [assign_member hs] at h
      simp at h
    · rcases hm : Members.find? p.last.name ms with _ | d
      · rw [assign_missing hs hm, Except.error.injEq] at h
        exact h ▸ .missing (Members.find?_eq_none_iff.1 hm) (.inr (by simp [hs]))
      · by_cases hd : d.kind = .array
        · obtain ⟨vs, rfl⟩ := Value.kind_eq_array_iff.1 hd
          rw [assign_element hs hm, map_eq_error_iff, replaceElement_eq_error_iff] at h
          obtain ⟨hi, rfl⟩ := h
          exact .elementPastEnd hs hm hi
        · rw [assign_notArray hs hm hd, Except.error.injEq] at h
          exact h ▸ .notArray (by simp [hs]) hm hd
  · intro h
    cases h with
    | missing hm hneeded =>
      obtain ⟨i, hi⟩ := Option.ne_none_iff_exists'.1 (hneeded.resolve_left (by simp))
      exact assign_missing hi (Members.find?_eq_none_iff.2 hm)
    | notArray hs hm hc =>
      obtain ⟨i, hi⟩ := Option.ne_none_iff_exists'.1 hs
      exact assign_notArray hi hm hc
    | elementPastEnd hs hm hi =>
      rw [assign_element hs hm, map_eq_error_iff, replaceElement_eq_error_iff]
      exact ⟨hi, rfl⟩
    | notObject h => exact absurd rfl h
    | notContainer _ hobject => exact absurd rfl hobject

theorem assign_array_eq_error_iff {b : Location} {vs : List Value} :
    Target.assign ⟨p, b, .array vs⟩ v = .error e ↔
      Obstacle p.text p.lastPosition p.last [] (.array vs) e := by
  constructor
  · intro h
    rcases hs : p.last.index with _ | i
    · by_cases hn : ∃ i, SpellsIndex p.last.name i
      · obtain ⟨i, hn⟩ := hn
        rw [assign_item hs hn, map_eq_error_iff, replaceElement_eq_error_iff] at h
        obtain ⟨hi, rfl⟩ := h
        exact .itemPastEnd rfl hs hn hi
      · rw [assign_notIndex hs (not_exists.1 hn), Except.error.injEq] at h
        exact h ▸ .notIndex rfl hs (not_exists.1 hn)
    · rw [assign_indexedItem hs, Except.error.injEq] at h
      exact h ▸ .indexedItem rfl (by simp [hs])
  · intro h
    cases h with
    | itemPastEnd _ hs hn hi =>
      rw [assign_item hs hn, map_eq_error_iff, replaceElement_eq_error_iff]
      exact ⟨hi, rfl⟩
    | notIndex _ hs hn => exact assign_notIndex hs hn
    | indexedItem _ hs =>
      obtain ⟨i, hi⟩ := Option.ne_none_iff_exists'.1 hs
      exact assign_indexedItem hi
    | notObject h => exact absurd rfl h
    | notContainer _ _ harray => exact absurd rfl harray

theorem set_of_get?_base (hc : t.get? p.base = some c) :
    t.set p v = .error e ↔ Obstacle p.text p.lastPosition p.last [] c e := by
  have hd : descendAll p.text 0 p.leading t = .ok (p.base, c) := descendAll_eq_ok_iff.2 ⟨rfl, hc⟩
  cases c with
  | object ms =>
    rw [Value.set, find_eq_ok_iff.2 ⟨_, hc, .inl rfl, rfl⟩, map_eq_error_iff]
    exact assign_object_eq_error_iff
  | array vs =>
    rw [Value.set, find_eq_ok_iff.2 ⟨_, hc, .inr rfl, rfl⟩, map_eq_error_iff]
    exact assign_array_eq_error_iff
  | _ =>
    simp only [Value.set, Target.find, hd, Value.kind, Except.error.injEq]
    constructor
    · rintro rfl
      exact .notContainer rfl (by simp [Value.kind]) (by simp [Value.kind])
    · intro h
      cases h with
      | notContainer => rfl
      | notObject h => exact absurd rfl h

theorem set_of_descendAll_error (hd : descendAll p.text 0 p.leading t = .error e) :
    t.set p v = .error e := by
  simp only [Value.set, Target.find, hd]

/-! ## The whole path -/

theorem Path.StoppedAt.set_eq (h : p.StoppedAt t n e) : t.set p v = .error e := by
  obtain ⟨before, s, rest, c, hsegments, rfl, hc, hob⟩ := h
  rcases List.eq_nil_or_concat rest with rfl | ⟨rest, last, rfl⟩
  · obtain ⟨rfl, hs⟩ := List.append_inj' hsegments rfl
    obtain rfl := List.singleton_inj.1 hs
    exact (set_of_get?_base hc).2 hob
  · rw [Path.segments, List.concat_eq_append, ← List.cons_append,
      ← List.append_assoc] at hsegments
    obtain ⟨hleading, -⟩ := List.append_inj' hsegments rfl
    have hne : rest.concat last ≠ [] := by simp
    refine set_of_descendAll_error (descendAll_eq_error_iff.2 ?_)
    refine ⟨before, s, rest, c, hleading, hc, ?_⟩
    rw [Nat.zero_add]
    exact (descend_eq_error_iff hne).2 hob

theorem exists_stoppedAt (h : t.set p v = .error e) : ∃ n, p.StoppedAt t n e := by
  rcases hd : descendAll p.text 0 p.leading t with f | ⟨l, c⟩
  · rw [set_of_descendAll_error hd, Except.error.injEq] at h
    subst h
    obtain ⟨before, s, rest, c, hleading, hc, he⟩ := descendAll_eq_error_iff.1 hd
    refine ⟨before.length, before, s, rest ++ [p.last], c, ?_, rfl, hc, ?_⟩
    · simp [Path.segments, hleading]
    · rw [Nat.zero_add] at he
      exact (descend_eq_error_iff (by simp)).1 he
  · obtain ⟨rfl, hc⟩ := descendAll_eq_ok_iff.1 hd
    exact ⟨p.lastPosition, p.leading, p.last, [], c, rfl, rfl, hc, (set_of_get?_base hc).1 h⟩

theorem Path.StoppedAt.segment? (h : p.StoppedAt t n e) : e.segment? = some n := by
  obtain ⟨before, s, rest, c, -, -, -, hob⟩ := h
  exact hob.segment?

theorem Path.StoppedAt.path? (h : p.StoppedAt t n e) : e.path? = some p.text := by
  obtain ⟨before, s, rest, c, -, -, -, hob⟩ := h
  exact hob.path?

theorem Path.StoppedAt.le_lastPosition (h : p.StoppedAt t n e) : n ≤ p.lastPosition := by
  obtain ⟨before, s, rest, c, hsegments, rfl, -, -⟩ := h
  have hlength := congrArg List.length hsegments
  simp only [Path.segments, List.length_append, List.length_cons, List.length_nil] at hlength
  rw [Path.lastPosition]
  omega

/-- An edit fails just when an obstacle stands on its path. The error is that of the first obstacle,
tells the segment where it stands and quotes the path. -/
theorem set_eq_error_iff (t v : Value) (p : Path) :
    ((∃ e, t.set p v = .error e) ↔ ∃ n e, p.StoppedAt t n e) ∧
    ∀ e, t.set p v = .error e ↔
      ∃ n ≤ p.lastPosition, p.StoppedAt t n e ∧ (∀ m < n, ∀ f, ¬ p.StoppedAt t m f) ∧
        e.segment? = some n ∧ e.path? = some p.text := by
  constructor
  · constructor
    · rintro ⟨e, he⟩
      obtain ⟨n, hn⟩ := exists_stoppedAt he
      exact ⟨n, e, hn⟩
    · rintro ⟨n, e, hn⟩
      exact ⟨e, hn.set_eq⟩
  · intro e
    constructor
    · intro he
      obtain ⟨n, hn⟩ := exists_stoppedAt he
      refine ⟨n, hn.le_lastPosition, hn, fun m hm f hf => ?_, hn.segment?, hn.path?⟩
      -- both obstacles are what the edit reports, so they are one
      obtain rfl : f = e := by
        have := hf.set_eq (v := v)
        rw [he, Except.error.injEq] at this
        exact this.symm
      have := hf.segment?.symm.trans hn.segment?
      rw [Option.some.injEq] at this
      omega
    · rintro ⟨n, -, hn, -⟩
      exact hn.set_eq

end JsonEdit
