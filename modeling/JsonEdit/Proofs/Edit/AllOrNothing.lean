import JsonEdit.Proofs.Edit.Obstacle

/-!
# All or nothing

* A `Change` is made to a value where it stands, and it leaves a value behind however it ends.
  `store` stores in this way: it goes down to the part that a last segment names and overwrites it
  there. The container may be any value, the segment any segment, and the path, which is only quoted
  in errors, any path.
* `store_eq_settled`: the container that `Target.assign` computes is the one that `store` leaves
  behind, and where `Target.assign` fails, `store` leaves what it found.
* `ChangesOne s v c c'`: one part of `c` at most was touched to make `c'`, the one that `s` names.
* Main statement: `store` changes one part or nothing, and its errors quote the path.
-/

namespace JsonEdit

/-- What is done to a value where it stands. The value that is left behind is known also if it ends
with an error. -/
abbrev Change := Value → EStateM.Result EditError Value Unit

namespace Change

/-- Whatever was there, `w` is there now. -/
def overwrite (w : Value) : Change := fun _ => .ok () w

/-- A change of the part that one step leads to. What it leaves of the part is in the value, also if
it ends with an error. -/
def within (s : Step) (missing : EditError) (x : Change) : Change := fun c =>
  match c.child? s with
  | none => .error missing c
  | some d =>
    match x d with
    | .ok _ d' => .ok () (c.alterChild (fun _ => d') s)
    | .error e d' => .error e (c.alterChild (fun _ => d') s)

/-- `v` in the place of element `i` of an array. -/
def storeItem (p : Path) (i : Nat) (v : Value) : Change
  | .array vs =>
    within (.index i) (.outOfRange p.text p.lastPosition i vs.length) (overwrite v) (.array vs)
  | c => .error (.mismatch p.text p.lastPosition .array c.kind) c

/-- `v` stored at the segment `s` of the value at hand. The path is quoted in errors. -/
def store (p : Path) (s : Segment) (v : Value) : Change
  | .object ms =>
    match s.index with
    | none => .ok () (.object (Members.put s.name v ms))
    | some i =>
      within (.key s.name) (.notFound p.text p.lastPosition s.name) (storeItem p i v) (.object ms)
  | .array vs =>
    match s.index, nameIndex? s.name with
    | none, some i => storeItem p i v (.array vs)
    | none, none => .error (.unfit p.text p.lastPosition (.notAnIndex s.name)) (.array vs)
    | some _, _ => .error (.unfit p.text p.lastPosition (.notApplicable s .array)) (.array vs)
  | c => .error (.unfit p.text p.lastPosition (.notApplicable s c.kind)) c

/-- What is left of `c` by a change that is computed first and made at once, if it can be made. -/
def settled (c : Value) : Except EditError Value → EStateM.Result EditError Value Unit
  | .ok c' => .ok () c'
  | .error e => .error e c

variable {p : Path} {s : Segment} {st : Step} {i : Nat} {v c c' d : Value} {e missing : EditError}
  {x : Change}

/-! ## Parts -/

theorem within_missing (h : c.child? st = none) : within st missing x c = .error missing c := by
  rw [within, h]

theorem within_ok {d' : Value} (h : c.child? st = some d) (hx : x d = .ok () d') :
    within st missing x c = .ok () (c.alterChild (fun _ => d') st) := by
  rw [within, h]
  dsimp only
  rw [hx]

theorem within_error (h : c.child? st = some d) (hx : x d = .error e d) :
    within st missing x c = .error e c := by
  rw [within, h]
  dsimp only
  rw [hx]
  exact congrArg (EStateM.Result.error e) (Value.alterChild_eq_self h rfl)

theorem storeItem_array (p : Path) (vs : List Value) (i : Nat) (v : Value) :
    storeItem p i v (.array vs) =
      settled (.array vs) ((Target.replaceElement p vs i v).map .array) := by
  by_cases hi : i < vs.length
  · have hchild : (Value.array vs).child? (.index i) = some (vs.get ⟨i, hi⟩) :=
      List.getElem?_eq_getElem hi
    rw [replaceElement_eq_ok_iff.2 ⟨hi, rfl⟩, storeItem,
      within_ok (x := overwrite v) hchild rfl, Value.alterChild, List.modify_eq_set]
    rfl
  · have hle : vs.length ≤ i := Nat.le_of_not_lt hi
    have hchild : (Value.array vs).child? (.index i) = none := List.getElem?_eq_none hle
    rw [replaceElement_eq_error_iff.2 ⟨hle, rfl⟩, storeItem, within_missing hchild]
    rfl

theorem storeItem_notArray (h : c.kind ≠ .array) :
    storeItem p i v c = .error (.mismatch p.text p.lastPosition .array c.kind) c := by
  cases c <;> first | rfl | exact absurd rfl h

end Change

/-! ## Storing in place and storing at once -/

/-- The path `p` with another last segment, quoted as `p` is. -/
def Path.endingWith (p : Path) (s : Segment) : Path :=
  { p with last := s }

namespace Change

variable {p : Path} {s : Segment} {l : Location} {i : Nat} {v c c' : Value} {e : EditError}
  {ms : List (String × Value)} {vs : List Value}

theorem store_element (hs : s.index = some i) (hm : Members.find? s.name ms = some (.array vs)) :
    store p s v (.object ms) =
      settled (.object ms) (Target.assign ⟨p.endingWith s, l, .object ms⟩ v) := by
  have hchild : (Value.object ms).child? (.key s.name) = some (.array vs) := hm
  have hitem := storeItem_array p vs i v
  rw [assign_element (p := p.endingWith s) hs hm, store, hs]
  dsimp only
  rcases hvs : Target.replaceElement (p.endingWith s) vs i v with e | vs'
  · rw [show Target.replaceElement p vs i v = .error e from hvs] at hitem
    rw [within_error hchild hitem]
    rfl
  · rw [show Target.replaceElement p vs i v = .ok vs' from hvs] at hitem
    rw [within_ok hchild hitem, Value.alterChild,
      ← Members.put_eq_alter (Members.mem_keys_of_find? hm)]
    rfl

/-- Storing in place leaves the container that storing at once gives, or what was there. -/
theorem store_eq_settled (p : Path) (s : Segment) (l : Location) (c v : Value) :
    store p s v c = settled c (Target.assign ⟨p.endingWith s, l, c⟩ v) := by
  rcases c with _ | _ | _ | _ | vs | ms
  case object =>
    rcases hs : s.index with _ | i
    · rw [assign_member (p := p.endingWith s) hs, store, hs]
      rfl
    rcases hm : Members.find? s.name ms with _ | d
    · rw [assign_missing (p := p.endingWith s) hs hm, store, hs]
      exact within_missing hm
    by_cases hd : d.kind = .array
    · obtain ⟨vs, rfl⟩ := Value.kind_eq_array_iff.1 hd
      exact store_element hs hm
    · rw [assign_notArray (p := p.endingWith s) hs hm hd, store, hs]
      exact within_error hm (storeItem_notArray hd)
  case array =>
    rcases hs : s.index with _ | i
    · rcases hn : nameIndex? s.name with _ | i
      · rw [assign_notIndex (p := p.endingWith s) hs (nameIndex?_eq_none_iff.1 hn), store, hs, hn]
        rfl
      · rw [assign_item (p := p.endingWith s) hs (nameIndex?_eq_some_iff.1 hn), store, hs, hn]
        exact storeItem_array p vs i v
    · rw [assign_indexedItem (p := p.endingWith s) hs, store, hs]
      rfl
  all_goals rfl

theorem store_eq_ok_iff : store p s v c = .ok () c' ↔ ∃ m, s.Stores v c m c' := by
  have hassign : Target.assign ⟨p.endingWith s, [], c⟩ v = .ok c' ↔ ∃ m, s.Stores v c m c' :=
    assign_eq_ok_iff
  rw [← hassign, store_eq_settled p s []]
  rcases Target.assign ⟨p.endingWith s, [], c⟩ v with e | d
  · exact iff_of_false nofun nofun
  · simp [settled]

theorem store_eq_error_iff :
    store p s v c = .error e c' ↔
      Target.assign ⟨p.endingWith s, [], c⟩ v = .error e ∧ c' = c := by
  rw [store_eq_settled p s []]
  rcases Target.assign ⟨p.endingWith s, [], c⟩ v with f | d
  · simp [settled, eq_comm]
  · exact iff_of_false nofun (by rintro ⟨⟨⟩, -⟩)

end Change

/-! ## What is touched -/

/-- `vs'` is `vs` with `v` as element `i`. -/
structure ChangesItem (i : Nat) (v : Value) (vs vs' : List Value) : Prop where
  length : vs'.length = vs.length
  stored : vs'[i]? = some v
  beside : ∀ j, j ≠ i → vs'[j]? = vs[j]?

/-- `ms'` is `ms` with `w` under `key`, which is a new last key if it was not there. -/
structure ChangesMember (key : String) (w : Value) (ms ms' : List (String × Value)) : Prop where
  keys : Members.keys ms' =
    if key ∈ Members.keys ms then Members.keys ms else Members.keys ms ++ [key]
  stored : Members.find? key ms' = some w
  beside : ms'.filter (·.1 ≠ key) = ms.filter (·.1 ≠ key)

/-- `c'` is `c` with `v` at the part that the segment `s` names, all other parts being as they
were. -/
inductive ChangesOne (s : Segment) (v : Value) : Value → Value → Prop where
  | item {vs vs' : List Value} {i : Nat} (hs : s.index = none) (hn : SpellsIndex s.name i)
    (h : ChangesItem i v vs vs') : ChangesOne s v (.array vs) (.array vs')
  | member {ms ms' : List (String × Value)} (hs : s.index = none)
    (h : ChangesMember s.name v ms ms') : ChangesOne s v (.object ms) (.object ms')
  | element {ms ms' : List (String × Value)} {vs vs' : List Value} {i : Nat}
    (hs : s.index = some i) (hm : Members.find? s.name ms = some (.array vs))
    (h : ChangesMember s.name (.array vs') ms ms') (hvs : ChangesItem i v vs vs') :
    ChangesOne s v (.object ms) (.object ms')

variable {p : Path} {s : Segment} {v c c' : Value} {m : Location}

theorem changesItem_set {vs : List Value} {i : Nat} (hi : i < vs.length) (v : Value) :
    ChangesItem i v vs (vs.set i v) where
  length := List.length_set
  stored := List.getElem?_set_self hi
  beside _ hj := List.getElem?_set_ne (Ne.symm hj)

theorem changesMember_put (key : String) (w : Value) (ms : List (String × Value)) :
    ChangesMember key w ms (Members.put key w ms) where
  keys := Members.keys_put key w ms
  stored := by rw [Members.find?_put, if_pos rfl]
  beside := Members.filter_put key w ms

theorem Segment.Stores.changesOne (h : s.Stores v c m c') : ChangesOne s v c c' := by
  cases h with
  | member hs => exact .member hs (changesMember_put ..)
  | element hs hm hi => exact .element hs hm (changesMember_put ..) (changesItem_set hi v)
  | item hs hn hi => exact .item hs hn (changesItem_set hi v)

theorem ChangesOne.kind_eq (h : ChangesOne s v c c') : c'.kind = c.kind := by
  cases h <;> rfl

/-! ## Errors -/

theorem assign_notContainer {b : Location} (h : ¬ c.IsContainer) :
    Target.assign ⟨p, b, c⟩ v =
      .error (.unfit p.text p.lastPosition (.notApplicable p.last c.kind)) := by
  rcases c with _ | _ | _ | _ | vs | ms
  case array => exact absurd (.inr rfl) h
  case object => exact absurd (.inl rfl) h
  all_goals rfl

theorem quotes_of_assign_eq_error {b : Location} {e : EditError}
    (h : Target.assign ⟨p, b, c⟩ v = .error e) :
    e.path? = some p.text ∧ e.segment? = some p.lastPosition := by
  by_cases hc : c.IsContainer
  · have hob : Obstacle p.text p.lastPosition p.last [] c e := by
      rcases hc with hc | hc
      · obtain ⟨ms, rfl⟩ := Value.kind_eq_object_iff.1 hc
        exact assign_object_eq_error_iff.1 h
      · obtain ⟨vs, rfl⟩ := Value.kind_eq_array_iff.1 hc
        exact assign_array_eq_error_iff.1 h
    exact ⟨hob.path?, hob.segment?⟩
  · rw [assign_notContainer hc, Except.error.injEq] at h
    subst h
    exact ⟨rfl, rfl⟩

/-! ## All of it -/

open Change (store settled)

/-- Storing in place, whatever the container and the last segment are: it does what storing at once
does. If it fails, the container is as before, and the error quotes the path and the place of its
last segment. It succeeds just when the segment names a part to store at; then the container is of
the same kind, and this part alone has changed. Nothing is stored in a scalar, and nothing in an
array at an index in brackets. -/
theorem store_allOrNothing (p : Path) (s : Segment) (v c : Value) :
    (∀ l, store p s v c = settled c (Target.assign ⟨p.endingWith s, l, c⟩ v)) ∧
    (∀ e c', store p s v c = .error e c' →
      c' = c ∧ e.path? = some p.text ∧ e.segment? = some p.lastPosition) ∧
    (∀ c', store p s v c = .ok () c' ↔ ∃ m, s.Stores v c m c') ∧
    (∀ c', store p s v c = .ok () c' → c'.kind = c.kind ∧ ChangesOne s v c c') ∧
    ((¬ c.IsContainer ∨ c.kind = .array ∧ s.index ≠ none) →
      ∃ e, store p s v c = .error e c ∧ e.category = .invalidPath) := by
  refine ⟨fun l => Change.store_eq_settled p s l c v, fun e c' h => ?_,
    fun c' => Change.store_eq_ok_iff, fun c' h => ?_, fun h => ?_⟩
  · obtain ⟨hassign, rfl⟩ := Change.store_eq_error_iff.1 h
    obtain ⟨hpath, hsegment⟩ := quotes_of_assign_eq_error hassign
    exact ⟨rfl, hpath, hsegment⟩
  · obtain ⟨m, hm⟩ := Change.store_eq_ok_iff.1 h
    exact ⟨hm.changesOne.kind_eq, hm.changesOne⟩
  · refine ⟨.unfit p.text p.lastPosition (.notApplicable s c.kind),
      Change.store_eq_error_iff.2 ⟨?_, rfl⟩, rfl⟩
    rcases h with hc | ⟨hc, hs⟩
    · exact assign_notContainer hc
    · obtain ⟨vs, rfl⟩ := Value.kind_eq_array_iff.1 hc
      obtain ⟨i, hi⟩ := Option.ne_none_iff_exists'.1 hs
      exact assign_indexedItem (p := p.endingWith s) hi

/-- Segments that have nothing to do with the path `x.y`: one stores in a list inside an object, one
without a name fails on a null. -/
theorem store_allOrNothing_foreign_segment :
    ChangesOne (.element "a" 1) (.boolean true)
      (.object [("b", .null), ("a", .array [.null, .null])])
      (.object [("b", .null), ("a", .array [.null, .boolean true])]) ∧
    ∃ e, store ⟨"x.y", [.key "x"], .key "y"⟩ (.element "" 0) (.boolean true) .null =
        .error e .null ∧
      e.category = .invalidPath ∧ e.path? = some "x.y" ∧ e.segment? = some 1 := by
  obtain ⟨-, -, -, hstored, -⟩ := store_allOrNothing ⟨"x.y", [.key "x"], .key "y"⟩ (.element "a" 1)
    (.boolean true) (.object [("b", .null), ("a", .array [.null, .null])])
  obtain ⟨-, hfailed, -, -, hscalar⟩ := store_allOrNothing ⟨"x.y", [.key "x"], .key "y"⟩
    (.element "" 0) (.boolean true) .null
  obtain ⟨e, he, hcategory⟩ := hscalar (.inl (by simp [Value.IsContainer, Value.kind]))
  obtain ⟨-, hpath, hsegment⟩ := hfailed e .null he
  exact ⟨(hstored _ rfl).2, e, he, hcategory, hpath, hsegment⟩

end JsonEdit
