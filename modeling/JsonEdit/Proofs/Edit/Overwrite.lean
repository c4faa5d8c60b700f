import JsonEdit.Proofs.Edit.Reread

/-!
# Edits at one path

* `Segment.Stores.again`: a segment that stores a value in a container stores every other value
  there, before and after, and what it stored first leaves no trace.
* Main statement: of two edits at one path the last one counts. This holds of documents, and of
  their texts as long as the text in between is read back.
-/

namespace JsonEdit

open Json (print)

theorem Segment.Stores.again {s : Segment} {v c c' : Value} {m : Location}
    (h : s.Stores v c m c') (w : Value) : ∃ d, s.Stores w c m d ∧ s.Stores w c' m d := by
  cases h with
  | @member ms hs =>
    have hafter : s.Stores w (.object (Members.put s.name v ms)) [.key s.name]
        (.object (Members.put s.name w (Members.put s.name v ms))) := .member hs
    rw [Members.put_put] at hafter
    exact ⟨_, .member hs, hafter⟩
  | @element ms vs i hs hm hi =>
    have hm' : Members.find? s.name (Members.put s.name (.array (vs.set i v)) ms) =
        some (.array (vs.set i v)) := by
      rw [Members.find?_put, if_pos rfl]
    have hi' : i < (vs.set i v).length := by rwa [List.length_set]
    have hafter := Stores.element (v := w) hs hm' hi'
    rw [Members.put_put, List.set_set] at hafter
    exact ⟨_, .element hs hm hi, hafter⟩
  | @item vs i hs hn hi =>
    have hi' : i < (vs.set i v).length := by rwa [List.length_set]
    have hafter := Stores.item (v := w) hs hn hi'
    rw [List.set_set] at hafter
    exact ⟨_, .item hs hn hi, hafter⟩

theorem exists_set_of_set {t t₁ v : Value} {p : Path} (h : t.set p v = .ok t₁) (w : Value) :
    ∃ t₂, t.set p w = .ok t₂ ∧ t₁.set p w = .ok t₂ := by
  obtain ⟨c, m, c', hc, hm, rfl⟩ := set_eq_ok_iff.1 h
  obtain ⟨d, hbefore, hafter⟩ := hm.again w
  refine ⟨t.put p.base d, set_eq_ok_iff.2 ⟨c, m, d, hc, hbefore, rfl⟩, ?_⟩
  have hc' : (t.put p.base c').get? p.base = some c' := Value.get?_put c' hc
  exact set_eq_ok_iff.2 ⟨c', m, d, hc', hafter, (Value.put_put t p.base c' d).symm⟩

theorem editDocument_print_of_set {document path raw : String} {t t₁ : Value} {p : Path}
    (ht : readDocument document = .ok t) (hp : readPath path = .ok p)
    (hset : t.set p (infer raw) = .ok t₁) (hn : t₁.nesting ≤ Json.maxOpen)
    (hfrac : t₁.Every Value.FractionSurvives) (raw' : String) :
    editDocument (print t₁) path raw' = editDocument document path raw' := by
  have hwritable : t₁.Every Value.Writable :=
    Value.every_writable (every_regular_of_set hset (every_regular_of_readDocument ht)
      (every_regular_infer raw)) hfrac
  obtain ⟨t₂, hbefore, hafter⟩ := exists_set_of_set hset (infer raw')
  calc editDocument (print t₁) path raw'
      = (t₁.set p (infer raw')).map print := by
        rw [editDocument_eq, readDocument_print hwritable hn, hp]
        rfl
    _ = (t.set p (infer raw')).map print := by rw [hbefore, hafter]
    _ = editDocument document path raw' := by
        rw [editDocument_eq, ht, hp]
        rfl

/-- Of two edits at one path, the last one counts: behind an edit that succeeds, another value is
stored with the same outcome as without it, and the same value changes nothing more. So it is with
texts, if the document in between nests at most 127 containers and its fractions survive alone. -/
theorem set_overwrites_and_editDocument_overwrites :
    (∀ (t t₁ v : Value) (p : Path), t.set p v = .ok t₁ →
      (∀ w, ∃ t₂, t₁.set p w = .ok t₂ ∧ t.set p w = .ok t₂) ∧ t₁.set p v = .ok t₁) ∧
    ∀ document path raw text, editDocument document path raw = .ok text →
      ∃ t p t₁, readDocument document = .ok t ∧ readPath path = .ok p ∧
        t.set p (infer raw) = .ok t₁ ∧ print t₁ = text ∧
        (t₁.nesting ≤ 127 → t₁.Every Value.FractionSurvives →
          ∀ raw', editDocument text path raw' = editDocument document path raw') := by
  constructor
  · intro t t₁ v p h
    refine ⟨fun w => ?_, ?_⟩
    · obtain ⟨t₂, hbefore, hafter⟩ := exists_set_of_set h w
      exact ⟨t₂, hafter, hbefore⟩
    · obtain ⟨t₂, hbefore, hafter⟩ := exists_set_of_set h v
      obtain rfl := Except.ok.inj (h.symm.trans hbefore)
      exact hafter
  · intro document path raw text h
    obtain ⟨t, p, t₁, ht, hp, hset, rfl⟩ := exists_set_of_editDocument h
    exact ⟨t, p, t₁, ht, hp, hset, rfl, editDocument_print_of_set ht hp hset⟩

theorem set_overwrites_added_member :
    (∃ t₂, (Value.object [("a", .null), ("b", .array [])]).set ⟨"b", [], .key "b"⟩ (.string "x") =
        .ok t₂ ∧
      (Value.object [("a", .null)]).set ⟨"b", [], .key "b"⟩ (.string "x") = .ok t₂) ∧
    ∃ text, editDocument "\x7b\"a\":null\x7d" "b" "[]" = .ok text ∧
      ∀ raw, editDocument text "b" raw = editDocument "\x7b\"a\":null\x7d" "b" raw := by
  have hset : (Value.object [("a", .null)]).set ⟨"b", [], .key "b"⟩ (.array []) =
      .ok (.object [("a", .null), ("b", .array [])]) := rfl
  have hpath : readPath "b" = .ok ⟨"b", [], .key "b"⟩ := rfl
  have hvalue : infer "[]" = .array [] := infer_lists (n := 0) (by decide)
  have hedit : editDocument "\x7b\"a\":null\x7d" "b" "[]" =
      .ok (print (.object [("a", .null), ("b", .array [])])) := by
    rw [editDocument_eq, readDocument_member_null, hpath, hvalue]
    exact congrArg (Except.map print) hset
  have hfrac : (Value.object [("a", .null), ("b", .array [])]).Every Value.FractionSurvives := by
    have hnull : Value.null.Every Value.FractionSurvives :=
      (Value.every_scalar (by simp [Value.kind]) (by simp [Value.kind])).2 trivial
    have hlist : (Value.array []).Every Value.FractionSurvives :=
      Value.every_array.2 ⟨trivial, List.forall_mem_nil _⟩
    exact Value.every_object_of_mem trivial (by simpa using ⟨hnull, hlist⟩)
  refine ⟨(set_overwrites_and_editDocument_overwrites.1 _ _ _ _ hset).1 (.string "x"), _, hedit, ?_⟩
  obtain ⟨t, p, t₁, ht, hp, ht₁, -, hagain⟩ :=
    set_overwrites_and_editDocument_overwrites.2 _ _ _ _ hedit
  obtain rfl := Except.ok.inj (readDocument_member_null.symm.trans ht)
  obtain rfl := Except.ok.inj (hpath.symm.trans hp)
  rw [hvalue] at ht₁
  obtain rfl := Except.ok.inj (hset.symm.trans ht₁)
  exact hagain (by decide) hfrac

end JsonEdit
