import JsonEdit.Proofs.Edit.Reach
import JsonEdit.Proofs.Edit.Session
import JsonEdit.Proofs.Json.Nesting

/-!
# Reading an edited document again

* The document and the value are read one by one, each with room for `maxOpen` containers, and
  nothing looks at them together. So an edit may print what the reader refuses.
* `p.depth` is how many steps a path takes below the root, whatever the document.
* Main statement: an edited document is read again if the steps of the path and the containers of
  the value are at most `maxOpen` together, and refused as too deep otherwise.
-/

namespace JsonEdit

open Json (print maxOpen)

/-! ## Depth of a path -/

/-- How many steps a path takes below the root. -/
def Path.depth (p : Path) : Nat :=
  p.base.length + p.last.steps.length

theorem Segment.Points.length_eq {s : Segment} {c : Value} {m : Location} (h : s.Points c m) :
    m.length = s.steps.length := by
  cases h with
  | member hs => rw [Segment.steps, hs]
  | element hs hm => rw [Segment.steps, hs]
  | item hs hi =>
    rw [Segment.steps, hs]
    rfl

theorem Path.Addresses.length_eq {p : Path} {t : Value} {l : Location} (h : p.Addresses t l) :
    l.length = p.depth := by
  obtain ⟨c, m, hc, hm, rfl⟩ := h
  rw [List.length_append, hm.length_eq, Path.depth]

/-! ## Nesting of an edited document -/

theorem Value.Every.distinct {v : Value} (h : v.Every Regular) : v.Distinct :=
  fun l c hc => (h l c hc).keys

/-- Where the document was not too deep, an update makes it too deep only at its location. -/
theorem IsUpdate.nesting_le_iff {t v t' : Value} {l : Location} {n : Nat} (h : IsUpdate t l v t')
    (ht : t.nesting ≤ n) (ht' : t'.Distinct) : t'.nesting ≤ n ↔ l.length + v.nesting ≤ n := by
  constructor
  · exact (Value.length_add_nesting_le h.stored).trans
  intro hv
  refine Value.nesting_le_of_get? ht' fun m c hc hpos => ?_
  by_cases hbelow : l <+: m
  · obtain ⟨r, rfl⟩ := hbelow
    rw [Value.get?_append, h.stored, Option.bind_some] at hc
    have hr := Value.length_add_nesting_le hc
    rw [List.length_append]
    omega
  by_cases habove : m <+: l
  · have hlt : m.length < l.length := by
      refine lt_of_le_of_ne habove.length_le fun e => hbelow ?_
      rw [habove.eq_of_length e]
    omega
  · rw [h.beside m hbelow habove] at hc
    have hm := Value.length_add_nesting_le hc
    omega

theorem nesting_of_set {t t' v : Value} {p : Path} {n : Nat} (h : t.set p v = .ok t')
    (ht : t.nesting ≤ n) (ht' : t'.Distinct) : t'.nesting ≤ n ↔ p.depth + v.nesting ≤ n := by
  obtain ⟨l, hl, hup⟩ := exists_isUpdate_of_set h
  rw [hup.nesting_le_iff ht ht', hl.length_eq]

/-! ## Edited texts -/

theorem exists_set_of_editDocument {document path raw text : String}
    (h : editDocument document path raw = .ok text) :
    ∃ t p t', readDocument document = .ok t ∧ readPath path = .ok p ∧
      t.set p (infer raw) = .ok t' ∧ print t' = text := by
  rw [editDocument_eq, bind_eq_ok_iff] at h
  obtain ⟨t, ht, h⟩ := h
  obtain ⟨p, hp, h⟩ := bind_eq_ok_iff.1 h
  obtain ⟨t', ht', htext⟩ := map_eq_ok_iff.1 h
  exact ⟨t, p, t', ht, hp, ht', htext⟩

/-- The text of an edited document is read again, as this document but for fractions that do not
survive, if the path and the value reach at most 127 levels together. Otherwise it is refused. -/
theorem readDocument_of_editDocument {document path raw text : String}
    (h : editDocument document path raw = .ok text) :
    ∃ t p t', readDocument document = .ok t ∧ readPath path = .ok p ∧
      t.set p (infer raw) = .ok t' ∧
      (p.depth + (infer raw).nesting ≤ 127 → readDocument text = .ok t'.reread) ∧
      (127 < p.depth + (infer raw).nesting → ∃ m, readDocument text = .error (.malformed m) ∧
        m.cause.message = "recursion limit exceeded") := by
  obtain ⟨t, p, t', ht, hp, hset, rfl⟩ := exists_set_of_editDocument h
  have hregular : t'.Every Value.Regular :=
    every_regular_of_set hset (every_regular_of_readDocument ht) (every_regular_infer raw)
  have hnesting : t'.nesting ≤ maxOpen ↔ p.depth + (infer raw).nesting ≤ maxOpen :=
    nesting_of_set hset (nesting_le_of_readDocument ht) hregular.distinct
  refine ⟨t, p, t', ht, hp, hset, fun hle => ?_, fun hlt => ?_⟩
  · exact readDocument_print_reread hregular (hnesting.2 hle)
  · obtain ⟨position, hrefused⟩ :=
      readDocument_print_refused hregular (Nat.lt_of_not_le fun hle =>
        absurd (hnesting.1 hle) (Nat.not_le.2 hlt))
    exact ⟨_, hrefused, rfl⟩

/-! ## Lists stored in a member -/

/-- An empty list inside `n` other lists. -/
def Value.lists : Nat → Value
  | 0 => .array []
  | n + 1 => .array [lists n]

theorem Value.nesting_lists (n : Nat) : (lists n).nesting = n + 1 := by
  induction n with
  | zero => rfl
  | succ n ih => rw [lists, nesting, itemsNesting, itemsNesting, ih, Nat.max_zero]

theorem Value.every_writable_lists (n : Nat) : (lists n).Every Writable := by
  induction n with
  | zero => exact every_array.2 ⟨⟨⟨trivial, trivial⟩, trivial⟩, List.forall_mem_nil _⟩
  | succ n ih => exact every_array.2 ⟨⟨⟨trivial, trivial⟩, trivial⟩, List.forall_mem_singleton.2 ih⟩

theorem Json.write_lists (depth n : Nat) :
    write compact depth (Value.lists n) =
      List.replicate (n + 1) '[' ++ List.replicate (n + 1) ']' := by
  induction n generalizing depth with
  | zero => rfl
  | succ n ih =>
    have hwrite : write compact depth (Value.lists (n + 1)) =
        '[' :: (write compact (depth + 1) (Value.lists n) ++ [']']) := by
      simp [Value.lists, write, writeItems, compact]
    rw [hwrite, ih, List.append_assoc, ← List.replicate_succ', ← List.cons_append,
      ← List.replicate_succ]

theorem infer_lists {n : Nat} (hn : n + 1 ≤ maxOpen) :
    infer (String.ofList (List.replicate (n + 1) '[' ++ List.replicate (n + 1) ']')) =
      Value.lists n := by
  rw [← Json.write_lists 0]
  refine infer_of_readDocument (readDocument_printLine (Value.every_writable_lists n) ?_)
  rwa [Value.nesting_lists]

theorem readDocument_member_null :
    readDocument "\x7b\"a\":null\x7d" = .ok (.object [("a", .null)]) := by
  have hnull : Value.null.Every Value.Writable :=
    (Value.every_scalar (by simp [Value.kind]) (by simp [Value.kind])).2
      ⟨⟨trivial, trivial⟩, trivial⟩
  have hobject : (Value.object [("a", .null)]).Every Value.Writable :=
    Value.every_object_of_mem ⟨⟨List.nodup_singleton _, trivial⟩, trivial⟩
      (List.forall_mem_singleton.2 hnull)
  have htext : Json.printLine (.object [("a", .null)]) = "\x7b\"a\":null\x7d" := by decide +kernel
  rw [← htext]
  exact readDocument_printLine hobject (by decide)

theorem readPath_member : readPath "a" = .ok ⟨"a", [], .key "a"⟩ :=
  rfl

theorem set_member_null (v : Value) :
    (Value.object [("a", .null)]).set ⟨"a", [], .key "a"⟩ v = .ok (.object [("a", v)]) :=
  rfl

theorem editDocument_member_null (raw : String) :
    editDocument "\x7b\"a\":null\x7d" "a" raw = .ok (print (.object [("a", infer raw)])) := by
  rw [editDocument_eq, readDocument_member_null, readPath_member]
  exact congrArg (Except.map print) (set_member_null (infer raw))

theorem readDocument_print_member_lists {n : Nat} (hn : maxOpen ≤ n + 1) (t : Value) :
    readDocument (print (.object [("a", Value.lists n)])) ≠ .ok t := by
  have hregular : (Value.object [("a", Value.lists n)]).Every Value.Regular :=
    Value.every_regular_object (List.nodup_singleton _)
      (List.forall_mem_singleton.2 (Value.every_writable_lists n).regular)
  have hnesting : maxOpen < (Value.object [("a", Value.lists n)]).nesting := by
    rw [Value.nesting, Value.membersNesting, Value.membersNesting, Value.nesting_lists]
    omega
  obtain ⟨position, hrefused⟩ := readDocument_print_refused hregular hnesting
  intro ht
  rw [hrefused] at ht
  cases ht

theorem readDocument_of_editDocument_emptyList :
    ∃ text, editDocument "\x7b\"a\":null\x7d" "a" "[]" = .ok text ∧
      readDocument text = .ok (.object [("a", .array [])]) := by
  have hvalue : infer "[]" = .array [] := infer_lists (n := 0) (by decide)
  have hedit := editDocument_member_null "[]"
  obtain ⟨t, p, t', ht, hp, ht', hread, -⟩ := readDocument_of_editDocument hedit
  obtain rfl := Except.ok.inj (readDocument_member_null.symm.trans ht)
  obtain rfl := Except.ok.inj (readPath_member.symm.trans hp)
  obtain rfl := Except.ok.inj ((set_member_null _).symm.trans ht')
  rw [hvalue] at hedit hread
  exact ⟨_, hedit, hread (by decide)⟩

/-- A member may be given the deepest value that can be read; then there is one container more than
can be read. -/
theorem readDocument_editDocument_lists :
    ∃ text, editDocument "\x7b\"a\":null\x7d" "a"
        (String.ofList (List.replicate 127 '[' ++ List.replicate 127 ']')) = .ok text ∧
      ∀ t, readDocument text ≠ .ok t := by
  refine ⟨_, editDocument_member_null _, fun t => ?_⟩
  rw [infer_lists (by decide)]
  exact readDocument_print_member_lists (by decide) t

end JsonEdit
