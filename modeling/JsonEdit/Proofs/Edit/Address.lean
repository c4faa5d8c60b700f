import JsonEdit.Edit.Document
import JsonEdit.Proofs.Location.Parts
import JsonEdit.Proofs.Outcome
import Mathlib.Algebra.Group.Nat.Defs

/-!
# Where a path leads

* `Segment.steps` are the steps of a segment that is followed; `Path.base` those of all segments but
  the last. Neither depends on the document.
* `Path.Addresses`: the location that a path stands for in a document, told by the kind of the last
  container.
* Main statements: `find_eq_ok_iff`, `assign_eq_ok_iff` and `set_eq_ok_iff` say when an edit
  succeeds and with what; everything else about successful edits is derived from them.
-/

namespace JsonEdit

/-! ## Indices in letters -/

/-- `name` spells the index `i`: digits, a plus before them or not, leading zeros or not. -/
def SpellsIndex (name : String) (i : Nat) : Prop :=
  ∃ ds, ds ≠ [] ∧ (∀ d ∈ ds, d.isDigit = true) ∧ (name.toList = ds ∨ name.toList = '+' :: ds) ∧
    Decimal.value ds = i ∧ i < 2 ^ 64

/-- A name without the plus at its front, if it has one. -/
def unsigned (name : String) : List Char :=
  match name.toList with
  | '+' :: ds => ds
  | ds => ds

theorem unsigned_of_digits {name : String} (h : ∀ d ∈ name.toList, d.isDigit = true) :
    unsigned name = name.toList := by
  unfold unsigned
  split
  · next ds hname => exact absurd (h '+' (hname ▸ List.mem_cons_self)) (by decide)
  · rfl

theorem toList_eq_unsigned (name : String) :
    name.toList = unsigned name ∨ name.toList = '+' :: unsigned name := by
  unfold unsigned
  split
  · next ds hname => exact .inr hname
  · exact .inl rfl

theorem nameIndex?_eq (name : String) :
    nameIndex? name =
      if unsigned name ≠ [] ∧ (unsigned name).all Char.isDigit ∧
        Decimal.value (unsigned name) < indexBound then some (Decimal.value (unsigned name))
      else none := rfl

theorem nameIndex?_eq_some_iff {name : String} {i : Nat} :
    nameIndex? name = some i ↔ SpellsIndex name i := by
  rw [nameIndex?_eq, Option.ite_none_right_eq_some, Option.some.injEq]
  constructor
  · rintro ⟨⟨hne, hall, hlt⟩, hi⟩
    exact ⟨unsigned name, hne, List.all_eq_true.1 hall, toList_eq_unsigned name, hi, hi ▸ hlt⟩
  · rintro ⟨ds, hne, hall, hname, hi, hlt⟩
    have hds : unsigned name = ds := by
      rcases hname with hname | hname
      · rw [unsigned_of_digits (hname ▸ hall), hname]
      · simp only [unsigned, hname]
    rw [hds]
    exact ⟨⟨hne, List.all_eq_true.2 hall, hi ▸ hlt⟩, hi⟩

theorem nameIndex?_eq_none_iff {name : String} :
    nameIndex? name = none ↔ ∀ i, ¬ SpellsIndex name i := by
  rw [Option.eq_none_iff_forall_ne_some]
  exact forall_congr' fun i => not_congr nameIndex?_eq_some_iff

/-! ## Steps of segments -/

namespace Segment

/-- The steps of a segment that is followed: to a member, and on to an element of it. -/
def steps (s : Segment) : Location :=
  match s.index with
  | none => [.key s.name]
  | some i => [.key s.name, .index i]

/-- Where a last segment points inside the container that it meets. -/
inductive Points (s : Segment) : Value → Location → Prop where
  | member {ms : List (String × Value)} (hs : s.index = none) :
    Points s (.object ms) [.key s.name]
  | element {ms : List (String × Value)} {vs : List Value} {i : Nat} (hs : s.index = some i)
    (hm : Members.find? s.name ms = some (.array vs)) :
    Points s (.object ms) [.key s.name, .index i]
  | item {vs : List Value} {i : Nat} (hs : s.index = none) (hi : SpellsIndex s.name i) :
    Points s (.array vs) [.index i]

/-- `v` stored at a last segment: the container before, where in it, and the container after. -/
inductive Stores (s : Segment) (v : Value) : Value → Location → Value → Prop where
  | member {ms : List (String × Value)} (hs : s.index = none) :
    Stores s v (.object ms) [.key s.name] (.object (Members.put s.name v ms))
  | element {ms : List (String × Value)} {vs : List Value} {i : Nat} (hs : s.index = some i)
    (hm : Members.find? s.name ms = some (.array vs)) (hi : i < vs.length) :
    Stores s v (.object ms) [.key s.name, .index i]
      (.object (Members.put s.name (.array (vs.set i v)) ms))
  | item {vs : List Value} {i : Nat} (hs : s.index = none) (hn : SpellsIndex s.name i)
    (hi : i < vs.length) :
    Stores s v (.array vs) [.index i] (.array (vs.set i v))

theorem Stores.points {s : Segment} {v c c' : Value} {m : Location} (h : s.Stores v c m c') :
    s.Points c m := by
  cases h with
  | member hs => exact .member hs
  | element hs hm hi => exact .element hs hm
  | item hs hn hi => exact .item hs hn

end Segment

namespace Path

/-- The steps of all segments but the last. -/
def base (p : Path) : Location :=
  p.leading.flatMap Segment.steps

/-- The location that a path stands for in a document. -/
def Addresses (p : Path) (t : Value) (l : Location) : Prop :=
  ∃ c m, t.get? p.base = some c ∧ p.last.Points c m ∧ l = p.base ++ m

end Path

/-! ## Following segments -/

section

variable {path : String} {n i : Nat} {s : Segment} {ms : List (String × Value)} {v c : Value}

theorem descend_missing (hm : Members.find? s.name ms = none) :
    descend path n s (.object ms) = .error (.notFound path n s.name) := by
  simp only [descend, hm]

theorem descend_plain (hm : Members.find? s.name ms = some c) (hs : s.index = none) :
    descend path n s (.object ms) = .ok ([.key s.name], c) := by
  simp only [descend, hm, hs]

theorem descend_indexed {vs : List Value} (hm : Members.find? s.name ms = some (.array vs))
    (hs : s.index = some i) :
    descend path n s (.object ms) =
      (elementAt path n vs i).map fun w => ([.key s.name, .index i], w) := by
  simp only [descend, hm, hs]

theorem descend_notArray (hm : Members.find? s.name ms = some c) (hs : s.index = some i)
    (hc : c.kind ≠ .array) :
    descend path n s (.object ms) = .error (.mismatch path n .array c.kind) := by
  simp only [descend, hm, hs]
  cases c <;> first | rfl | exact absurd rfl hc

theorem descend_notObject (h : v.kind ≠ .object) :
    descend path n s v = .error (.mismatch path n .object v.kind) := by
  cases v <;> first | rfl | exact absurd rfl h

theorem get?_steps_plain (hs : s.index = none) : v.get? s.steps = v.child? (.key s.name) := by
  simp only [Segment.steps, hs, Value.get?, Option.bind_fun_some]

theorem get?_steps_indexed (hs : s.index = some i) :
    v.get? s.steps = (v.child? (.key s.name)).bind (·.child? (.index i)) := by
  simp only [Segment.steps, hs, Value.get?, Option.bind_fun_some]

theorem get?_steps_notObject (h : v.kind ≠ .object) : v.get? s.steps = none := by
  have hv : v.child? (.key s.name) = none := by
    cases v <;> first | rfl | exact absurd rfl h
  rcases hs : s.index with _ | i
  · rw [get?_steps_plain hs, hv]
  · rw [get?_steps_indexed hs, hv, Option.bind_none]

end

theorem descend_eq_ok_iff {path : String} {n : Nat} {s : Segment} {v w : Value} {l : Location} :
    descend path n s v = .ok (l, w) ↔ l = s.steps ∧ v.get? s.steps = some w := by
  by_cases hk : v.kind = .object
  · obtain ⟨ms, rfl⟩ := Value.kind_eq_object_iff.1 hk
    rcases hs : s.index with _ | i
    · rw [get?_steps_plain hs, Segment.steps, hs]
      rcases hm : Members.find? s.name ms with _ | c
      · simp [descend_missing hm, Value.child?, hm]
      · simp [descend_plain hm hs, Value.child?, hm, eq_comm]
    · rw [get?_steps_indexed hs, Segment.steps, hs]
      rcases hm : Members.find? s.name ms with _ | c
      · simp [descend_missing hm, Value.child?, hm]
      · rw [show (Value.object ms).child? (.key s.name) = some c from hm, Option.bind_some]
        by_cases hc : c.kind = .array
        · obtain ⟨vs, rfl⟩ := Value.kind_eq_array_iff.1 hc
          rw [descend_indexed hm hs, elementAt,
            show (Value.array vs).child? (.index i) = vs[i]? from rfl]
          rcases vs[i]? with _ | u
          · simp [Except.map]
          · simp [Except.map, eq_comm]
        · rw [descend_notArray hm hs hc]
          cases c with
          | array vs => exact absurd rfl hc
          | _ => simp [Value.child?]
  · simp [descend_notObject hk, get?_steps_notObject hk]

theorem descendAll_eq_ok_iff {path : String} {n : Nat} {ss : List Segment} {v w : Value}
    {l : Location} :
    descendAll path n ss v = .ok (l, w) ↔
      l = ss.flatMap Segment.steps ∧ v.get? (ss.flatMap Segment.steps) = some w := by
  induction ss generalizing n v w l with
  | nil => simp [descendAll, Value.get?, eq_comm]
  | cons s ss ih =>
    rw [descendAll, List.flatMap_cons, Value.get?_append]
    rcases hd : descend path n s v with e | ⟨l₁, c⟩
    · have hn : ∀ c, v.get? s.steps ≠ some c := by
        intro c hc
        rw [descend_eq_ok_iff.2 ⟨rfl, hc⟩] at hd
        simp at hd
      rw [Option.eq_none_iff_forall_ne_some.2 hn]
      simp
    · obtain ⟨rfl, hc⟩ := descend_eq_ok_iff.1 hd
      rw [hc]
      simp only [Option.bind_some]
      rcases hr : descendAll path (n + 1) ss c with e | ⟨l₂, u⟩
      · have hn : ∀ u, c.get? (ss.flatMap Segment.steps) ≠ some u := by
          intro u hu
          rw [ih.2 ⟨rfl, hu⟩] at hr
          simp at hr
        simp [Except.map, hn]
      · obtain ⟨rfl, hu⟩ := ih.1 hr
        simp [Except.map, hu, eq_comm]

/-! ## Storing -/

/-- A value that parts can be stored in. -/
def Value.IsContainer (v : Value) : Prop :=
  v.kind = .object ∨ v.kind = .array

theorem find_eq_ok_iff {t : Value} {p : Path} {r : Target} :
    Target.find t p = .ok r ↔
      ∃ c, t.get? p.base = some c ∧ c.IsContainer ∧ r = ⟨p, p.base, c⟩ := by
  rw [Target.find]
  rcases hd : descendAll p.text 0 p.leading t with e | ⟨l, c⟩
  · have hn : ∀ c, t.get? p.base ≠ some c := by
      intro c hc
      rw [descendAll_eq_ok_iff.2 ⟨rfl, hc⟩] at hd
      simp at hd
    simp [hn]
  · obtain ⟨rfl, hc⟩ := descendAll_eq_ok_iff.1 hd
    rw [show t.get? p.base = some c from hc]
    simp only [Value.IsContainer, Option.some.injEq, exists_eq_left']
    cases hk : c.kind <;> simp [Path.base, eq_comm]

theorem replaceElement_eq_ok_iff {p : Path} {vs vs' : List Value} {i : Nat} {v : Value} :
    Target.replaceElement p vs i v = .ok vs' ↔ i < vs.length ∧ vs' = vs.set i v := by
  rw [Target.replaceElement, elementAt]
  by_cases hi : i < vs.length
  · simp [hi, Except.map, eq_comm]
  · rw [List.getElem?_eq_none (Nat.le_of_not_lt hi)]
    simp [hi, Except.map]

section

variable {p : Path} {b : Location} {ms : List (String × Value)} {vs : List Value} {c v : Value}
  {i : Nat}

theorem assign_member (hs : p.last.index = none) :
    Target.assign ⟨p, b, .object ms⟩ v = .ok (.object (Members.put p.last.name v ms)) := by
  simp only [Target.assign, hs]

theorem assign_missing (hs : p.last.index = some i) (hm : Members.find? p.last.name ms = none) :
    Target.assign ⟨p, b, .object ms⟩ v =
      .error (.notFound p.text p.lastPosition p.last.name) := by
  simp only [Target.assign, hs, hm]

theorem assign_element (hs : p.last.index = some i)
    (hm : Members.find? p.last.name ms = some (.array vs)) :
    Target.assign ⟨p, b, .object ms⟩ v =
      (Target.replaceElement p vs i v).map fun vs' =>
        .object (Members.put p.last.name (.array vs') ms) := by
  simp only [Target.assign, hs, hm]

theorem assign_notArray (hs : p.last.index = some i)
    (hm : Members.find? p.last.name ms = some c) (hc : c.kind ≠ .array) :
    Target.assign ⟨p, b, .object ms⟩ v =
      .error (.mismatch p.text p.lastPosition .array c.kind) := by
  simp only [Target.assign, hs, hm]
  cases c with
  | array vs => exact absurd rfl hc
  | _ => rfl

theorem assign_item (hs : p.last.index = none) (hn : SpellsIndex p.last.name i) :
    Target.assign ⟨p, b, .array vs⟩ v = (Target.replaceElement p vs i v).map .array := by
  simp only [Target.assign, hs, nameIndex?_eq_some_iff.2 hn]

theorem assign_notIndex (hs : p.last.index = none) (hn : ∀ i, ¬ SpellsIndex p.last.name i) :
    Target.assign ⟨p, b, .array vs⟩ v =
      .error (.unfit p.text p.lastPosition (.notAnIndex p.last.name)) := by
  simp only [Target.assign, hs, nameIndex?_eq_none_iff.2 hn]

theorem assign_indexedItem (hs : p.last.index = some i) :
    Target.assign ⟨p, b, .array vs⟩ v =
      .error (.unfit p.text p.lastPosition (.notApplicable p.last .array)) := by
  simp only [Target.assign, hs, Value.kind]

end

theorem assign_eq_ok_iff {p : Path} {b : Location} {c c' v : Value} :
    Target.assign ⟨p, b, c⟩ v = .ok c' ↔ ∃ m, p.last.Stores v c m c' := by
  constructor
  · intro h
    cases c with
    | object ms =>
      rcases hs : p.last.index with _ | i
      · rw [assign_member hs, Except.ok.injEq] at h
        subst h
        exact ⟨_, .member hs⟩
      · rcases hm : Members.find? p.last.name ms with _ | d
        · rw [assign_missing hs hm] at h
          simp at h
        · by_cases hd : d.kind = .array
          · obtain ⟨vs, rfl⟩ := Value.kind_eq_array_iff.1 hd
            rw [assign_element hs hm, map_eq_ok_iff] at h
            obtain ⟨vs', hvs, rfl⟩ := h
            obtain ⟨hi, rfl⟩ := replaceElement_eq_ok_iff.1 hvs
            exact ⟨_, .element hs hm hi⟩
          · rw [assign_notArray hs hm hd] at h
            simp at h
    | array vs =>
      rcases hs : p.last.index with _ | i
      · by_cases hn : ∃ i, SpellsIndex p.last.name i
        · obtain ⟨i, hn⟩ := hn
          rw [assign_item hs hn, map_eq_ok_iff] at h
          obtain ⟨vs', hvs, rfl⟩ := h
          obtain ⟨hi, rfl⟩ := replaceElement_eq_ok_iff.1 hvs
          exact ⟨_, .item hs hn hi⟩
        · rw [assign_notIndex hs (not_exists.1 hn)] at h
          simp at h
      · rw [assign_indexedItem hs] at h
        simp at h
    | _ => exact nomatch h
  · rintro ⟨m, h⟩
    cases h with
    | member hs => exact assign_member hs
    | element hs hm hi =>
      rw [assign_element hs hm, replaceElement_eq_ok_iff.2 ⟨hi, rfl⟩]
      rfl
    | item hs hn hi =>
      rw [assign_item hs hn, replaceElement_eq_ok_iff.2 ⟨hi, rfl⟩]
      rfl

theorem Segment.Stores.isContainer {s : Segment} {v c c' : Value} {m : Location}
    (h : s.Stores v c m c') : c.IsContainer := by
  cases h with
  | member hs => exact .inl rfl
  | element hs hm hi => exact .inl rfl
  | item hs hn hi => exact .inr rfl

theorem set_eq_ok_iff {t t' v : Value} {p : Path} :
    t.set p v = .ok t' ↔
      ∃ c m c', t.get? p.base = some c ∧ p.last.Stores v c m c' ∧ t' = t.put p.base c' := by
  rw [Value.set]
  constructor
  · intro h
    rcases hf : Target.find t p with e | r
    · rw [hf] at h
      simp at h
    · obtain ⟨c, hc, -, rfl⟩ := find_eq_ok_iff.1 hf
      rw [hf] at h
      obtain ⟨c', ha, rfl⟩ := map_eq_ok_iff.1 h
      obtain ⟨m, hm⟩ := assign_eq_ok_iff.1 ha
      exact ⟨c, m, c', hc, hm, rfl⟩
  · rintro ⟨c, m, c', hc, hm, rfl⟩
    rw [find_eq_ok_iff.2 ⟨c, hc, hm.isContainer, rfl⟩]
    exact map_eq_ok_iff.2 ⟨c', assign_eq_ok_iff.2 ⟨m, hm⟩, rfl⟩

/-! ## Editing a text -/

theorem editDocument_eq (document path raw : String) :
    editDocument document path raw =
      (readDocument document).bind fun t => (readPath path).bind fun p =>
        (t.set p (infer raw)).map Json.print := by
  unfold editDocument findTarget
  rcases readDocument document with e | t
  · rfl
  rcases readPath path with e | p
  · rfl
  show _ = (t.set p (infer raw)).map Json.print
  rw [Value.set]
  rcases hf : Target.find t p with e | r
  · simp [hf, Except.map, bind, Except.bind]
  · simp only [hf, bind, Except.bind, pure, Except.pure]
    rcases ha : r.assign (infer raw) with e | c <;> simp [Except.map]

end JsonEdit
