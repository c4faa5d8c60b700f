import JsonEdit.Proofs.Json.Canonical
import JsonEdit.Proofs.Json.Lines

/-!
# Replacing what is there

* Where a path addresses something, an edit replaces just that, and the rest is laid out as it was
  (`editDocument_of_addresses`).
* Main statements: a value given back as its own text leaves the canonical document, and a value on
  one line put in the place of another one changes one line of it at most.
-/

namespace JsonEdit

open Json (print)

variable {document path : String} {t c : Value} {p : Path} {l : Location}

theorem editDocument_of_addresses (ht : readDocument document = .ok t) (hp : readPath path = .ok p)
    (haddr : p.Addresses t l) (hc : t.get? l = some c) (raw : String) :
    editDocument document path raw = .ok (print (t.put l (infer raw))) := by
  rw [editDocument_eq, ht, hp]
  exact congrArg (Except.map print) (haddr.set_eq hc (infer raw))

theorem infer_print_of_get? (ht : readDocument document = .ok t) (hc : t.get? l = some c)
    (hfrac : c.Every Value.FractionSurvives) : infer (print c) = c := by
  have hregular : c.Every Value.Regular := (every_regular_of_readDocument ht).get? hc
  have hnesting : c.nesting ≤ Json.maxOpen := by
    have hpart := Value.length_add_nesting_le hc
    have hwhole := nesting_le_of_readDocument ht
    omega
  exact infer_of_readDocument (readDocument_print (Value.every_writable hregular hfrac) hnesting)

/-- Writing back what is there lays the document out and changes nothing else. Only the fractions of
the value have to survive: the rest of the document is not read again. -/
theorem editDocument_print_eq_canonical (ht : readDocument document = .ok t)
    (hp : readPath path = .ok p) (haddr : p.Addresses t l) (hc : t.get? l = some c)
    (hfrac : c.Every Value.FractionSurvives) :
    editDocument document path (print c) = canonical document ∧
      canonical document = .ok (print t) := by
  have hcanonical : canonical document = .ok (print t) := canonical_eq_ok_iff.2 ⟨t, ht, rfl⟩
  refine ⟨?_, hcanonical⟩
  rw [hcanonical, editDocument_of_addresses ht hp haddr hc, infer_print_of_get? ht hc hfrac,
    Value.put_get? hc]

theorem editDocument_print_eq_canonical_half :
    editDocument "\x7b\"b\":0.5\x7d" "b" "0.5" = canonical "\x7b\"b\":0.5\x7d" := by
  have hhalf : (Value.number (.fraction 0.5)).Every Value.FractionSurvives :=
    (Value.every_scalar (by simp [Value.kind]) (by simp [Value.kind])).2 fractionSurvives_half
  have hread : readDocument "\x7b\"b\":0.5\x7d" =
      .ok (.object [("b", .number (.fraction 0.5))]) := by
    have htext : Json.printLine (.object [("b", .number (.fraction 0.5))]) =
        "\x7b\"b\":0.5\x7d" := by
      decide +kernel
    have hregular : (Value.object [("b", .number (.fraction 0.5))]).Every Value.Regular :=
      Value.every_regular_object (List.nodup_singleton _)
        (List.forall_mem_singleton.2 (Value.every_regular_number trivial))
    have hfrac : (Value.object [("b", .number (.fraction 0.5))]).Every Value.FractionSurvives :=
      Value.every_object_of_mem trivial (List.forall_mem_singleton.2 hhalf)
    rw [← htext]
    exact readDocument_printLine (Value.every_writable hregular hfrac) (by decide)
  have hpath : readPath "b" = .ok ⟨"b", [], .key "b"⟩ := rfl
  have htext : print (.number (.fraction 0.5)) = "0.5" := by decide +kernel
  rw [← htext]
  exact (editDocument_print_eq_canonical hread hpath
    (l := [.key "b"]) ⟨_, [.key "b"], rfl, .member rfl, rfl⟩ rfl hhalf).1

/-- A scalar or an empty container that takes the place of another one changes one line at most of
the canonical text. -/
theorem editDocument_alikeButOneLine {raw : String} (ht : readDocument document = .ok t)
    (hp : readPath path = .ok p) (haddr : p.Addresses t l) (hc : t.get? l = some c)
    (hleaf : c.IsLeaf) (hraw : (infer raw).IsLeaf) :
    ∃ s s', canonical document = .ok s ∧ editDocument document path raw = .ok s' ∧
      AlikeButOneLine s s' := by
  have hcanonical : canonical document = .ok (print t) := canonical_eq_ok_iff.2 ⟨t, ht, rfl⟩
  have hedit : editDocument document path raw = .ok (print (t.put l (infer raw))) :=
    editDocument_of_addresses ht hp haddr hc raw
  exact ⟨_, _, hcanonical, hedit, alikeButOneLine_print_put hc hleaf hraw⟩

theorem editDocument_alikeButOneLine_lineFeed :
    ∃ s s', canonical "\x7b\"a\":null\x7d" = .ok s ∧
      editDocument "\x7b\"a\":null\x7d" "a" "\"x\\ny\"" = .ok s' ∧ AlikeButOneLine s s' := by
  have hwritable : (Value.string "x\ny").Every Value.Writable :=
    (Value.every_scalar (by simp [Value.kind]) (by simp [Value.kind])).2
      ⟨⟨trivial, trivial⟩, trivial⟩
  have htext : Json.printLine (.string "x\ny") = "\"x\\ny\"" := by decide +kernel
  have hvalue : infer "\"x\\ny\"" = .string "x\ny" := by
    rw [← htext]
    exact infer_of_readDocument (readDocument_printLine hwritable (by decide))
  have hleaf : (infer "\"x\\ny\"").IsLeaf := by
    rw [hvalue]
    trivial
  exact editDocument_alikeButOneLine readDocument_member_null readPath_member
    (l := [.key "a"]) ⟨_, [.key "a"], rfl, .member rfl, rfl⟩ rfl trivial hleaf

end JsonEdit
