import JsonEdit.Proofs.Edit.Session
import JsonEdit.Proofs.Json.ObjectText

/-!
# Documents that can be reached

* `Reachable t`: some text was read and some values were stored one after another, each at any path,
  until the document was `t`. Where a value could not be stored, the document stayed as it was.
* Such a document repeats no key and holds only integers of 64 bits, at every level
  (`Reachable.every_regular`): reading starts with a document of this kind, and every value that is
  stored is one.
* Where a text repeats a key, the document has it once, where it stands first and with the value it
  has last.
-/

namespace JsonEdit

open Value (Regular)

/-- The values that are stored: what a free text stands for, and documents of their own. -/
inductive Supplied : Value → Prop where
  | infer (raw : String) : Supplied (infer raw)
  | read {text : String} {v : Value} (h : readDocument text = .ok v) : Supplied v

/-- The documents that reading a text and storing values can lead to. -/
inductive Reachable : Value → Prop where
  | read {text : String} {t : Value} (h : readDocument text = .ok t) : Reachable t
  | store {t v : Value} (p : Path) (ht : Reachable t) (hv : Supplied v) :
    Reachable (keep t (t.set p v))

theorem Supplied.every_regular {v : Value} (h : Supplied v) : v.Every Regular := by
  cases h with
  | infer raw => exact every_regular_infer raw
  | read h => exact every_regular_of_readDocument h

theorem every_regular_keep {t v : Value} (p : Path) (ht : t.Every Regular) (hv : v.Every Regular) :
    (keep t (t.set p v)).Every Regular := by
  rcases hset : t.set p v with e | t'
  · exact ht
  · exact every_regular_of_set hset ht hv

theorem Reachable.every_regular {t : Value} (h : Reachable t) : t.Every Regular := by
  induction h with
  | read h => exact every_regular_of_readDocument h
  | store p ht hv ih => exact every_regular_keep p ih hv.every_regular

/-- The text of an object is read as its members merged, unless it is refused as too deep. -/
theorem Json.WritesObject.readDocument_eq {text : String} {written : List (String × Value)}
    (h : WritesObject text.toList written) :
    readDocument text = .ok (.object (Members.merge written)) ∨
      ∃ position, readDocument text = .error (.malformed ⟨.tooDeep, position⟩) := by
  rcases h.gives with hread | ⟨unread, hread⟩
  · exact .inl (readDocument_eq_ok_iff.2 hread)
  · refine .inr ⟨(Fault.malformed text ⟨.tooDeep, unread⟩).position, ?_⟩
    unfold readDocument Json.read
    rw [hread]
    rfl

theorem Json.readValue_quote_alone (text : String) :
    readValue [] (quote text) = .ok (.string text) := by
  have h : readValue [] ([] ++ (quote text ++ [])) = goOn [] (.string text) [] :=
    readValue_quote text (List.forall_mem_nil _)
  rw [List.nil_append, List.append_nil] at h
  exact h.trans (goOn_end (List.forall_mem_nil _))

theorem Json.readValue_word_alone {c : Char} {letters : List Char} {v : Value}
    (hblank : isBlank c = false) (hc : word? c = some (letters, v)) :
    readValue [] (c :: letters) = .ok v := by
  obtain ⟨_, hnext⟩ := next?_cons hblank (letters ++ [])
  have h : readValue [] (c :: (letters ++ [])) = goOn [] v [] := readValue_word hnext hc
  rw [List.append_nil] at h
  exact h.trans (goOn_end (List.forall_mem_nil _))

/-- In every document that can be reached, the keys of every object differ and every integer fits 64
bits. A text that is read as an object writes its members one after another, and the object lists
each key once, at the place of its first occurrence and with the value of its last one. -/
theorem every_regular_of_reachable_and_keys_of_writesObject :
    (∀ t, Reachable t → t.Every Regular) ∧
    (∀ text ms, readDocument text = .ok (.object ms) →
      ∃ written, Json.WritesObject text.toList written) ∧
    ∀ text written, Json.WritesObject text.toList written →
      (∃ ms, readDocument text = .ok (.object ms) ∧
        Members.keys ms = (Members.keys written).eraseDups ∧
        ∀ key, Members.find? key ms = Members.find? key written.reverse) ∨
      ∃ position, readDocument text = .error (.malformed ⟨.tooDeep, position⟩) := by
  refine ⟨fun t ht => ht.every_regular, fun text ms h => ?_, fun text written h => ?_⟩
  · exact Json.exists_writesObject_of_readValue (readDocument_eq_ok_iff.1 h)
  · rcases h.readDocument_eq with hread | htooDeep
    · exact .inl ⟨_, hread, Members.keys_merge written, fun key => Members.find?_merge ..⟩
    · exact .inr htooDeep

theorem every_regular_of_reachable_repeated_key :
    ∃ ms, readDocument "\x7b\"a\":true,\"b\":null,\"a\":false\x7d" = .ok (.object ms) ∧
      Members.keys ms = ["a", "b"] ∧ Members.find? "a" ms = some (.boolean false) ∧
      (keep (.object ms)
        ((Value.object ms).set ⟨"a", [], ⟨"a", none⟩⟩ (infer "1"))).Every Regular := by
  have hwrites : Json.WritesObject "\x7b\"a\":true,\"b\":null,\"a\":false\x7d".toList
      [("a", .boolean true), ("b", .null), ("a", .boolean false)] := by
    have hfirst : Json.WritesMember "\"a\":true".toList ("a", .boolean true) :=
      ⟨_, _, rfl, Json.readValue_quote_alone "a", Json.readValue_word_alone rfl rfl⟩
    have hsecond : Json.WritesMember "\"b\":null".toList ("b", .null) :=
      ⟨_, _, rfl, Json.readValue_quote_alone "b", Json.readValue_word_alone rfl rfl⟩
    have hthird : Json.WritesMember "\"a\":false".toList ("a", .boolean false) :=
      ⟨_, _, rfl, Json.readValue_quote_alone "a", Json.readValue_word_alone rfl rfl⟩
    exact .members (List.forall_mem_nil _) (.more hfirst (.more hsecond (.last hthird)))
      (List.forall_mem_nil _)
  have hread : (readDocument "\x7b\"a\":true,\"b\":null,\"a\":false\x7d").toBool = true := by
    decide +kernel
  obtain ⟨hreachable, -, hobject⟩ := every_regular_of_reachable_and_keys_of_writesObject
  rcases hobject _ _ hwrites with ⟨ms, hms, hkeys, hfind⟩ | ⟨position, htooDeep⟩
  · refine ⟨ms, hms, hkeys, hfind "a", ?_⟩
    exact hreachable _ (.store _ (.read hms) (.infer "1"))
  · rw [htooDeep] at hread
    cases hread

end JsonEdit
