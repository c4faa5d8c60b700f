import JsonEdit.Proofs.Edit.Append
import JsonEdit.Proofs.Edit.Update

/-!
# The container that a path leads to

* `Overwrites t l w t'`: the document `t'` is `t` with `w` at `l`, where something was before, and
  no other change. Of all documents with distinct keys, `t.put l w` is the only such one.
* What is met on the way is a part of the document: put back where it was found, it changes nothing
  (`put_of_descendAll`, `exists_descendAll_of_find_error`).
* Main statement: the target of a path is the container that its leading segments lead to. Writing
  to it changes the document there and nowhere else, and the last segment has no part in finding it.
-/

namespace JsonEdit

open Location (Encloses)
open Value (SameOutline)

/-- `t'` is `t` with `w` in the place of what was at `l`, and no other change. -/
structure Overwrites (t : Value) (l : Location) (w t' : Value) : Prop where
  stored : t'.get? l = some w
  beside : ∀ m, ¬ l <+: m → ¬ m <+: l → t'.get? m = t.get? m
  around : ∀ m, Encloses m l →
    ∃ c c', t.get? m = some c ∧ t'.get? m = some c' ∧ SameOutline c c'

variable {t c w u : Value} {l : Location} {p q : Path} {e : EditError} {r : Target}

theorem Overwrites.isUpdate (h : Overwrites t l w u) : IsUpdate t l w u where
  stored := h.stored
  beside := h.beside
  around m hm := by
    obtain ⟨c, c', hc, hc', hsame⟩ := h.around m hm
    exact ⟨c, c', hc, hc', .inl hsame⟩

theorem overwrites_put (hc : t.get? l = some c) (w : Value) : Overwrites t l w (t.put l w) where
  stored := Value.get?_put w hc
  beside _ h h' := Value.get?_put_of_disjoint t w h h'
  around _ hm := sameOutline_put hc w hm

theorem Overwrites.eq_put (hc : t.get? l = some c) (hu : u.Distinct) (h : Overwrites t l w u) :
    u = t.put l w :=
  h.isUpdate.unique hu (overwrites_put hc w).isUpdate

/-! ## On the way -/

theorem put_of_descendAll {text : String} {n : Nat} {ss : List Segment}
    (h : descendAll text n ss t = .ok (l, c)) : t.get? l = some c ∧ t.put l c = t := by
  obtain ⟨rfl, hc⟩ := descendAll_eq_ok_iff.1 h
  exact ⟨hc, Value.put_get? hc⟩

theorem set_of_find_error (h : Target.find t p = .error e) (v : Value) : t.set p v = .error e := by
  rw [Value.set, h]

/-- Where a path stops, all segments before have been followed to a part of the document. -/
theorem exists_descendAll_of_find_error (h : Target.find t p = .error e) :
    ∃ before s rest l c, p.segments = before ++ s :: rest ∧
      descendAll p.text 0 before t = .ok (l, c) ∧ t.put l c = t ∧
        e.segment? = some before.length ∧ e.path? = some p.text := by
  obtain ⟨n, before, s, rest, c, hsegments, rfl, hc, hob⟩ :=
    exists_stoppedAt (set_of_find_error h .null)
  exact ⟨before, s, rest, _, c, hsegments, descendAll_eq_ok_iff.2 ⟨rfl, hc⟩, Value.put_get? hc,
    hob.segment?, hob.path?⟩

/-! ## Without the last segment -/

section

variable (text text' : String) (n : Nat)

theorem elementAt_behind (vs : List Value) (i : Nat) :
    elementAt text' n vs i = (elementAt text n vs i).mapError (EditError.behind text' 0) := by
  rw [elementAt, elementAt]
  cases vs[i]? with
  | none => simp [Except.mapError, EditError.behind]
  | some w => rfl

/-- The text of a path is only quoted. -/
theorem descend_behind (s : Segment) (v : Value) :
    descend text' n s v = (descend text n s v).mapError (EditError.behind text' 0) := by
  by_cases hk : v.kind = .object
  · obtain ⟨ms, rfl⟩ := Value.kind_eq_object_iff.1 hk
    rcases hm : Members.find? s.name ms with _ | c
    · simp [descend_missing hm, Except.mapError, EditError.behind]
    rcases hs : s.index with _ | i
    · simp [descend_plain hm hs, Except.mapError]
    by_cases hc : c.kind = .array
    · obtain ⟨vs, rfl⟩ := Value.kind_eq_array_iff.1 hc
      rw [descend_indexed hm hs, descend_indexed hm hs, elementAt_behind text text']
      cases elementAt text n vs i <;> rfl
    · simp [descend_notArray hm hs hc, Except.mapError, EditError.behind]
  · simp [descend_notObject hk, Except.mapError, EditError.behind]

theorem descendAll_behind (ss : List Segment) (v : Value) :
    descendAll text' n ss v = (descendAll text n ss v).mapError (EditError.behind text' 0) := by
  induction ss generalizing n v with
  | nil => rfl
  | cons s ss ih =>
    rw [descendAll, descendAll, descend_behind text text']
    rcases descend text n s v with e | ⟨steps, w⟩
    · rfl
    · show Except.map _ _ = Except.mapError _ (Except.map _ _)
      rw [ih]
      cases descendAll text (n + 1) ss w <;> rfl

end

theorem find_congr (h : q.leading = p.leading) :
    Target.find t q =
      ((Target.find t p).map fun r => { r with path := q }).mapError
        (EditError.behind q.text 0) := by
  have hlast : q.lastPosition = p.lastPosition := congrArg List.length h
  rw [Target.find, Target.find, h, hlast, descendAll_behind p.text q.text]
  rcases descendAll p.text 0 p.leading t with e | ⟨l, c⟩
  · rfl
  · simp only [Except.mapError]
    cases c.kind <;> simp [Except.map, EditError.behind]

/-! ## Targets -/

theorem exists_find_iff :
    (∃ r, Target.find t p = .ok r) ↔ ∃ c, t.get? p.base = some c ∧ c.IsContainer := by
  constructor
  · rintro ⟨r, hr⟩
    obtain ⟨c, hc, hcontainer, -⟩ := find_eq_ok_iff.1 hr
    exact ⟨c, hc, hcontainer⟩
  · rintro ⟨c, hc, hcontainer⟩
    exact ⟨_, find_eq_ok_iff.2 ⟨c, hc, hcontainer, rfl⟩⟩

/-- A path has a target just when its leading segments lead to a container, and this container is
the target. All that is met on the way, up to the target or to the segment that cannot be followed,
is a part of the document, and back in its place it leaves the document as it was. Another value in
the place of the target gives the document that differs from the first one there alone. A path with
the same leading segments has the same target, or fails for the same reason. -/
theorem find_is_window_and_find_congr (t : Value) (p : Path) :
    ((∃ r, Target.find t p = .ok r) ↔ ∃ c, t.get? p.base = some c ∧ c.IsContainer) ∧
    (∀ r, Target.find t p = .ok r →
      descendAll p.text 0 p.leading t = .ok (r.location, r.parent) ∧ r.location = p.base ∧
      t.get? r.location = some r.parent ∧ r.parent.IsContainer ∧
      r.path = p ∧ p.segments = p.leading ++ [r.path.last] ∧
      t.put r.location r.parent = t ∧
      ∀ w, Overwrites t r.location w (t.put r.location w) ∧
        (t.Distinct → w.Distinct → (t.put r.location w).Distinct ∧
          ∀ u, u.Distinct → Overwrites t r.location w u → u = t.put r.location w)) ∧
    (∀ e, Target.find t p = .error e →
      ∃ before s rest l c, p.segments = before ++ s :: rest ∧
        descendAll p.text 0 before t = .ok (l, c) ∧ t.put l c = t ∧
        e.segment? = some before.length ∧ e.path? = some p.text) ∧
    (∀ before l c, before <+: p.leading → descendAll p.text 0 before t = .ok (l, c) →
      t.get? l = some c ∧ t.put l c = t) ∧
    ∀ q : Path, q.leading = p.leading →
      Target.find t q =
        ((Target.find t p).map fun r => { r with path := q }).mapError
          (EditError.behind q.text 0) := by
  refine ⟨exists_find_iff, fun r hr => ?_, fun e he => exists_descendAll_of_find_error he,
    fun before l c _ hd => put_of_descendAll hd, fun q hq => find_congr hq⟩
  obtain ⟨c, hc, hcontainer, rfl⟩ := find_eq_ok_iff.1 hr
  refine ⟨descendAll_eq_ok_iff.2 ⟨rfl, hc⟩, rfl, hc, hcontainer, rfl, rfl, Value.put_get? hc,
    fun w => ⟨overwrites_put hc w, fun ht hw => ⟨ht.put hw, fun u hu h => h.eq_put hc hu⟩⟩⟩

theorem find_is_window_nested :
    ∃ r, Target.find (.object [("a", .array [.null, .object [("b", .array [])]])])
        ⟨"a[1].b.0", [.element "a" 1, .key "b"], .key "0"⟩ = .ok r ∧
      r.location = [.key "a", .index 1, .key "b"] ∧ r.parent = .array [] ∧
      Overwrites (.object [("a", .array [.null, .object [("b", .array [])]])])
        [.key "a", .index 1, .key "b"] .null
        (.object [("a", .array [.null, .object [("b", .null)]])]) ∧
      Target.find (.object [("a", .array [.null, .object [("b", .array [])]])])
        ⟨"a[1].b.x", [.element "a" 1, .key "b"], .key "x"⟩ =
          .ok { r with path := ⟨"a[1].b.x", [.element "a" 1, .key "b"], .key "x"⟩ } := by
  have hr : Target.find (.object [("a", .array [.null, .object [("b", .array [])]])])
      ⟨"a[1].b.0", [.element "a" 1, .key "b"], .key "0"⟩ =
        .ok ⟨_, [.key "a", .index 1, .key "b"], .array []⟩ := rfl
  obtain ⟨-, htarget, -, -, hcongr⟩ :=
    find_is_window_and_find_congr (.object [("a", .array [.null, .object [("b", .array [])]])])
      ⟨"a[1].b.0", [.element "a" 1, .key "b"], .key "0"⟩
  obtain ⟨-, -, -, -, -, -, -, hput⟩ := htarget _ hr
  refine ⟨_, hr, rfl, rfl, (hput .null).1, ?_⟩
  rw [hcongr ⟨"a[1].b.x", [.element "a" 1, .key "b"], .key "x"⟩ rfl, hr]
  rfl

end JsonEdit
