import JsonEdit.Proofs.Json.RoundTrip

/-!
# How deep documents nest

* `Value.length_add_nesting_le`, `Value.nesting_le_of_get?`: the nesting of a document is told by
  the locations of its containers.
* `nesting_le_of_readDocument`: whatever the text, the document read from it nests at most `maxOpen`
  containers. On its way the reader has room for all that its open containers hold so far.
-/

namespace JsonEdit

/-! ## Nesting and locations -/

namespace Value

variable {v c : Value} {n : Nat}

theorem itemsNesting_le_iff {vs : List Value} :
    itemsNesting vs ≤ n ↔ ∀ v ∈ vs, v.nesting ≤ n := by
  induction vs with
  | nil => exact iff_of_true (Nat.zero_le n) (List.forall_mem_nil _)
  | cons v vs ih => rw [itemsNesting, Nat.max_le, ih, List.forall_mem_cons]

theorem membersNesting_le_iff {ms : List (String × Value)} :
    membersNesting ms ≤ n ↔ ∀ m ∈ ms, m.2.nesting ≤ n := by
  induction ms with
  | nil => exact iff_of_true (Nat.zero_le n) (List.forall_mem_nil _)
  | cons m ms ih => rw [membersNesting, Nat.max_le, ih, List.forall_mem_cons]

theorem itemsNesting_reverse {vs : List Value} : itemsNesting vs.reverse = itemsNesting vs := by
  refine eq_of_forall_ge_iff fun n => ?_
  simp only [itemsNesting_le_iff, List.mem_reverse]

theorem membersNesting_put_le (key : String) (v : Value) (ms : List (String × Value)) :
    membersNesting (Members.put key v ms) ≤ max v.nesting (membersNesting ms) := by
  refine membersNesting_le_iff.2 fun m hm => ?_
  rcases Members.mem_put hm with rfl | hm
  · exact le_max_left _ _
  · exact (membersNesting_le_iff.1 le_rfl m hm).trans (le_max_right _ _)

theorem nesting_lt_of_child? {s : Step} (h : v.child? s = some c) : c.nesting < v.nesting := by
  rcases v with _ | _ | _ | _ | vs | ms
  · cases s <;> cases h
  · cases s <;> cases h
  · cases s <;> cases h
  · cases s <;> cases h
  · rcases s with k | i
    · cases h
    · exact Nat.lt_succ_of_le (itemsNesting_le_iff.1 le_rfl c (List.mem_of_getElem? h))
  · rcases s with k | i
    · exact Nat.lt_succ_of_le (membersNesting_le_iff.1 le_rfl (k, c) (Members.mem_of_find? h))
    · cases h

theorem length_add_nesting_le {l : Location} (h : v.get? l = some c) :
    l.length + c.nesting ≤ v.nesting := by
  induction l generalizing v with
  | nil =>
    obtain rfl : v = c := Option.some.inj h
    rw [List.length_nil, Nat.zero_add]
  | cons s l ih =>
    rw [Value.get?, Option.bind_eq_some_iff] at h
    obtain ⟨d, hd, hc⟩ := h
    have hchild := nesting_lt_of_child? hd
    have hbelow := ih hc
    rw [List.length_cons]
    omega

/-- No container lies too far below the root, so not too many stand inside each other. -/
theorem nesting_le_of_get? (hv : v.Distinct)
    (h : ∀ l c, v.get? l = some c → 0 < c.nesting → l.length < n) : v.nesting ≤ n := by
  induction n generalizing v with
  | zero => exact Nat.le_of_not_lt fun hpos => absurd (h [] v rfl hpos) (Nat.not_lt_zero _)
  | succ n ih =>
    have hchild : ∀ s c, v.child? s = some c → c.nesting ≤ n := fun s c hc =>
      ih (hv.child hc) fun l d hd hpos =>
        Nat.lt_of_succ_lt_succ (h (s :: l) d (by rwa [get?_cons_of_child? hc]) hpos)
    rcases v with _ | _ | _ | _ | vs | ms
    · exact Nat.zero_le _
    · exact Nat.zero_le _
    · exact Nat.zero_le _
    · exact Nat.zero_le _
    · refine Nat.succ_le_succ (itemsNesting_le_iff.2 fun w hw => ?_)
      obtain ⟨i, hi⟩ := List.mem_iff_getElem?.1 hw
      exact hchild (.index i) w hi
    · refine Nat.succ_le_succ (membersNesting_le_iff.2 fun m hm => ?_)
      exact hchild (.key m.1) m.2 (Members.find?_of_mem hv.self hm)

end Value

/-! ## What was read -/

namespace Json

/-- The greatest nesting among all that an open container holds so far. -/
def Frame.nesting : Frame → Nat
  | .items done => Value.itemsNesting done
  | .members done _ => Value.membersNesting done

/-- The open containers may stand around what they hold so far. -/
def HasRoom : List Frame → Prop
  | [] => True
  | f :: stack => stack.length + 1 + f.nesting ≤ maxOpen ∧ HasRoom stack

theorem HasRoom.length_le {stack : List Frame} (h : HasRoom stack) : stack.length ≤ maxOpen := by
  cases stack with
  | nil => exact Nat.zero_le _
  | cons f stack => exact Nat.le_of_add_right_le h.1

/-- There is also room for the value that has just been completed. -/
def Place.HasRoom : Place → Prop
  | .due stack _ => Json.HasRoom stack
  | .behind stack v _ => Json.HasRoom stack ∧ stack.length + v.nesting ≤ maxOpen

theorem nesting_of_readOpening {s r : List Char} {v : Value} {h : r.length < s.length}
    (hread : readOpening s = .ok (.scalar v, ⟨r, h⟩)) : v.nesting = 0 := by
  rcases scalar_of_readOpening hread with
    (rfl | ⟨b, rfl⟩) | ⟨text, rfl⟩ | ⟨x, t, h', -, rfl⟩ <;> rfl

variable {stack : List Frame} {v : Value}

theorem HasRoom.item {done : List Value} (h : HasRoom (.items done :: stack))
    (hv : stack.length + 1 + v.nesting ≤ maxOpen) :
    stack.length + 1 + Value.itemsNesting (v :: done) ≤ maxOpen := by
  have hdone : stack.length + 1 + Value.itemsNesting done ≤ maxOpen := h.1
  rw [Value.itemsNesting]
  omega

theorem HasRoom.member {done : List (String × Value)} {key : String}
    (h : HasRoom (.members done key :: stack)) (hv : stack.length + 1 + v.nesting ≤ maxOpen) :
    stack.length + 1 + Value.membersNesting (Members.put key v done) ≤ maxOpen := by
  have hdone : stack.length + 1 + Value.membersNesting done ≤ maxOpen := h.1
  have hput := Value.membersNesting_put_le key v done
  omega

theorem Place.HasRoom.moves {p q : Place} (hmoves : p.Moves q) (h : p.HasRoom) : q.HasRoom := by
  -- five moves from where a value is due, then two out of a list and two out of an object
  rcases hmoves with hs | hopen | hopen | hopen | ⟨key, hopen⟩ | hr | hr | hr | ⟨key', hr⟩
  · refine ⟨h, ?_⟩
    rw [nesting_of_readOpening hs]
    exact h.length_le
  · exact ⟨h, hopen⟩
  · exact ⟨hopen, h⟩
  · exact ⟨h, hopen⟩
  · exact ⟨hopen, h⟩
  · obtain ⟨hstack, hv⟩ := h
    have hitems := hstack.item hv
    refine ⟨hstack.2, ?_⟩
    rw [Value.nesting, Value.itemsNesting_reverse]
    omega
  · obtain ⟨hstack, hv⟩ := h
    exact ⟨hstack.item hv, hstack.2⟩
  · obtain ⟨hstack, hv⟩ := h
    have hmembers := hstack.member hv
    refine ⟨hstack.2, ?_⟩
    rw [Value.nesting]
    omega
  · obtain ⟨hstack, hv⟩ := h
    exact ⟨hstack.member hv, hstack.2⟩

end Json

theorem nesting_le_of_readDocument {text : String} {v : Value} (h : readDocument text = .ok v) :
    v.nesting ≤ Json.maxOpen := by
  have hrun : (Json.Place.due [] text.toList).run = .ok v := readDocument_eq_ok_iff.1 h
  have hstart : (Json.Place.due [] text.toList).HasRoom := trivial
  obtain ⟨s, -, hv⟩ := Json.Place.holds_of_run (fun p q => Json.Place.HasRoom.moves) hstart hrun
  rwa [List.length_nil, Nat.zero_add] at hv

end JsonEdit
