import JsonEdit.Proofs.Json.Moves
import JsonEdit.Proofs.Json.Number
import JsonEdit.Proofs.Location.Parts

/-!
# What every document that was read has in common

Whatever the text, the document read from it repeats no key and holds only integers of 64 bits
(`every_regular_of_readDocument`); so does the value that any free text stands for
(`every_regular_infer`). The reader keeps this of all that its open containers hold so far.
-/

namespace JsonEdit

/-- The keys of an object differ, an integer fits 64 bits. -/
structure Value.Regular (v : Value) : Prop where
  keys : v.KeysDiffer
  integer : v.IntegerFits

namespace Value

theorem every_regular_scalar {v : Value} (ho : v.kind ≠ .object) (ha : v.kind ≠ .array)
    (hi : v.IntegerFits) : v.Every Regular := by
  refine (every_scalar ho ha).2 ⟨?_, hi⟩
  rcases v with _ | _ | _ | _ | _ | ms
  · trivial
  · trivial
  · trivial
  · trivial
  · trivial
  · exact absurd rfl ho

theorem every_regular_null : null.Every Regular :=
  every_regular_scalar (by simp [kind]) (by simp [kind]) trivial

theorem every_regular_boolean (b : Bool) : (boolean b).Every Regular :=
  every_regular_scalar (by simp [kind]) (by simp [kind]) trivial

theorem every_regular_number {x : Number} (h : IntegerFits (.number x)) :
    (number x).Every Regular :=
  every_regular_scalar (by simp [kind]) (by simp [kind]) h

theorem every_regular_string (s : String) : (string s).Every Regular :=
  every_regular_scalar (by simp [kind]) (by simp [kind]) trivial

theorem every_regular_array {vs : List Value} (h : ∀ v ∈ vs, v.Every Regular) :
    (array vs).Every Regular :=
  every_array.2 ⟨⟨trivial, trivial⟩, h⟩

theorem every_regular_object {ms : List (String × Value)} (hkeys : (Members.keys ms).Nodup)
    (h : ∀ m ∈ ms, m.2.Every Regular) : (object ms).Every Regular :=
  every_object_of_mem ⟨hkeys, trivial⟩ h

end Value

namespace Json

open Value (Regular)

/-! ## Numbers -/

theorem Numeral.fits_of_toNumber {n : Numeral} {i : Int} (h : n.toNumber = .ok (.integer i)) :
    -2 ^ 63 ≤ i ∧ i < 2 ^ 64 := by
  obtain ⟨-, -, hi⟩ := toNumber_eq_integer_iff.1 h
  obtain ⟨-, hlow, hhigh, -⟩ := integer?_eq_integer_iff.1 hi
  exact ⟨hlow, hhigh⟩

theorem integerFits_of_readNumber {s r : List Char} {x : Number} {h : r.length < s.length}
    (hread : readNumber s = .ok (x, ⟨r, h⟩)) : Value.IntegerFits (.number x) := by
  obtain ⟨w, n, -, -, hn⟩ := numeral_of_readNumber hread
  rcases x with i | x
  · exact Numeral.fits_of_toNumber hn
  · trivial

theorem every_regular_of_readOpening {s r : List Char} {v : Value} {h : r.length < s.length}
    (hread : readOpening s = .ok (.scalar v, ⟨r, h⟩)) : v.Every Regular := by
  rcases scalar_of_readOpening hread with
    (rfl | ⟨b, rfl⟩) | ⟨text, rfl⟩ | ⟨x, t, h', hx, rfl⟩
  · exact Value.every_regular_null
  · exact Value.every_regular_boolean b
  · exact Value.every_regular_string text
  · exact Value.every_regular_number (integerFits_of_readNumber hx)

/-! ## Open containers -/

/-- All that an open container holds so far is regular. -/
def Frame.Regular : Frame → Prop
  | .items done => ∀ v ∈ done, v.Every Value.Regular
  | .members done _ => (Members.keys done).Nodup ∧ ∀ m ∈ done, m.2.Every Value.Regular

/-- All that the reader holds at a place is regular. -/
def Place.Regular : Place → Prop
  | .due stack _ => ∀ f ∈ stack, f.Regular
  | .behind stack v _ => (∀ f ∈ stack, f.Regular) ∧ v.Every Value.Regular

theorem Frame.Regular.put {done : List (String × Value)} {key : String} {v : Value}
    (h : (Frame.members done key).Regular) (hv : v.Every Value.Regular) :
    (Members.keys (Members.put key v done)).Nodup ∧
      ∀ m ∈ Members.put key v done, m.2.Every Value.Regular := by
  obtain ⟨hkeys, hdone⟩ := h
  refine ⟨Members.nodup_keys_put hkeys, fun m hm => ?_⟩
  rcases Members.mem_put hm with rfl | hm
  · exact hv
  · exact hdone m hm

theorem Place.Regular.moves {p q : Place} (hmoves : p.Moves q) (h : p.Regular) : q.Regular := by
  -- five moves from where a value is due, then two out of a list and two out of an object
  rcases hmoves with hs | hopen | hopen | hopen | ⟨key, hopen⟩ | hr | hr | hr | ⟨key', hr⟩
  · exact ⟨h, every_regular_of_readOpening hs⟩
  · exact ⟨h, Value.every_regular_array (List.forall_mem_nil _)⟩
  · exact List.forall_mem_cons.2 ⟨List.forall_mem_nil _, h⟩
  · exact ⟨h, Value.every_regular_object List.nodup_nil (List.forall_mem_nil _)⟩
  · exact List.forall_mem_cons.2 ⟨⟨List.nodup_nil, List.forall_mem_nil _⟩, h⟩
  · obtain ⟨⟨hdone, hstack⟩, hv⟩ := h.imp_left List.forall_mem_cons.1
    refine ⟨hstack, Value.every_regular_array fun w hw => ?_⟩
    exact List.forall_mem_cons.2 ⟨hv, hdone⟩ w (List.mem_reverse.1 hw)
  · obtain ⟨⟨hdone, hstack⟩, hv⟩ := h.imp_left List.forall_mem_cons.1
    exact List.forall_mem_cons.2 ⟨List.forall_mem_cons.2 ⟨hv, hdone⟩, hstack⟩
  · obtain ⟨⟨hdone, hstack⟩, hv⟩ := h.imp_left List.forall_mem_cons.1
    obtain ⟨hkeys, hmembers⟩ := hdone.put hv
    exact ⟨hstack, Value.every_regular_object hkeys hmembers⟩
  · obtain ⟨⟨hdone, hstack⟩, hv⟩ := h.imp_left List.forall_mem_cons.1
    exact List.forall_mem_cons.2 ⟨hdone.put hv, hstack⟩

end Json

/-! ## Documents and free texts -/

theorem every_regular_of_readDocument {text : String} {v : Value}
    (h : readDocument text = .ok v) : v.Every Value.Regular := by
  have hrun : (Json.Place.due [] text.toList).run = .ok v := readDocument_eq_ok_iff.1 h
  have hstart : (Json.Place.due [] text.toList).Regular := List.forall_mem_nil _
  obtain ⟨s, -, hv⟩ := Json.Place.holds_of_run (fun p q => Json.Place.Regular.moves) hstart hrun
  exact hv

theorem fits_of_integer? {s : List Char} {n : Int} (h : Infer.integer? s = some n) :
    -2 ^ 63 ≤ n ∧ n < 2 ^ 63 := by
  unfold Infer.integer? at h
  dsimp only at h
  rw [Option.ite_none_right_eq_some, Option.ite_none_right_eq_some] at h
  obtain ⟨-, hn, h⟩ := h
  rw [← Option.some.inj h]
  exact hn

theorem every_regular_of_inferWord? {s : List Char} {v : Value} (h : Infer.word? s = some v) :
    v.Every Value.Regular := by
  unfold Infer.word? at h
  dsimp only at h
  split at h
  · exact Option.some.inj h ▸ Value.every_regular_boolean true
  · split at h
    · exact Option.some.inj h ▸ Value.every_regular_boolean false
    · split at h
      · exact Option.some.inj h ▸ Value.every_regular_null
      · simp at h

theorem every_regular_infer (text : String) : (infer text).Every Value.Regular := by
  fun_cases infer text with
  | case1 v hread =>
    have hdocument : readDocument text = .ok v := by
      rw [readDocument, hread]
      rfl
    exact every_regular_of_readDocument hdocument
  | case2 m hread v hword => exact every_regular_of_inferWord? hword
  | case3 m hread hword n hn =>
    obtain ⟨hlow, hhigh⟩ := fits_of_integer? hn
    exact Value.every_regular_number ⟨hlow, by omega⟩
  | case4 m hread hword hn x hx => exact Value.every_regular_number trivial
  | case5 => exact Value.every_regular_string text

end JsonEdit
