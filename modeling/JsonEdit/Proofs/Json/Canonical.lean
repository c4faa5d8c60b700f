import JsonEdit.Proofs.Json.Nesting

/-!
# Canonical texts

* What is read from any text repeats no key, holds only integers of 64 bits and nests no deeper than
  the reader can follow. So its canonical text is always read again, and laid out again it is the
  text of what comes back (`canonical_print`).
* Main statement: laying a canonical text out again changes nothing, as long as its fractions
  survive.
-/

namespace JsonEdit

open Json (print)

theorem canonical_eq_ok_iff {text s : String} :
    canonical text = .ok s ↔ ∃ t, readDocument text = .ok t ∧ print t = s :=
  map_eq_ok_iff

/-- The canonical text of what was read is laid out again, whatever its fractions. -/
theorem canonical_print {text : String} {t : Value} (h : readDocument text = .ok t) :
    canonical (print t) = .ok (print t.reread) := by
  have hregular : t.Every Value.Regular := every_regular_of_readDocument h
  have hnesting : t.nesting ≤ Json.maxOpen := nesting_le_of_readDocument h
  exact canonical_eq_ok_iff.2 ⟨_, readDocument_print_reread hregular hnesting, rfl⟩

/-- A canonical text has a canonical text of its own. It is the same one if every fraction of the
document survives alone. -/
theorem canonical_canonical {text s : String} (h : canonical text = .ok s) :
    (∃ s', canonical s = .ok s') ∧
      ((∀ t, readDocument text = .ok t → t.Every Value.FractionSurvives) →
        canonical s = .ok s) := by
  obtain ⟨t, ht, rfl⟩ := canonical_eq_ok_iff.1 h
  have hagain := canonical_print ht
  refine ⟨⟨_, hagain⟩, fun hfrac => ?_⟩
  have hwritable : t.Every Value.Writable :=
    Value.every_writable (every_regular_of_readDocument ht) (hfrac t ht)
  rw [hagain, Value.reread_eq_self t hwritable]

theorem canonical_canonical_half :
    ∃ s, canonical "\x7b\"b\":[0.5]\x7d" = .ok s ∧ canonical s = .ok s := by
  have hhalf : (Value.number (.fraction 0.5)).Every Value.FractionSurvives :=
    (Value.every_scalar (by simp [Value.kind]) (by simp [Value.kind])).2 fractionSurvives_half
  have hfrac : (Value.object [("b", .array [.number (.fraction 0.5)])]).Every
      Value.FractionSurvives :=
    Value.every_object_of_mem trivial (List.forall_mem_singleton.2
      (Value.every_array.2 ⟨trivial, List.forall_mem_singleton.2 hhalf⟩))
  have hregular : (Value.object [("b", .array [.number (.fraction 0.5)])]).Every Value.Regular :=
    Value.every_regular_object (List.nodup_singleton _) (List.forall_mem_singleton.2
      (Value.every_regular_array (List.forall_mem_singleton.2
        (Value.every_regular_number trivial))))
  have htext : Json.printLine (.object [("b", .array [.number (.fraction 0.5)])]) =
      "\x7b\"b\":[0.5]\x7d" := by
    decide +kernel
  have hread : readDocument "\x7b\"b\":[0.5]\x7d" =
      .ok (.object [("b", .array [.number (.fraction 0.5)])]) := by
    rw [← htext]
    exact readDocument_printLine (Value.every_writable hregular hfrac) (by decide)
  have hcanonical := canonical_eq_ok_iff.2 ⟨_, hread, rfl⟩
  refine ⟨_, hcanonical, (canonical_canonical hcanonical).2 fun t ht => ?_⟩
  obtain rfl := Except.ok.inj (hread.symm.trans ht)
  exact hfrac

end JsonEdit
