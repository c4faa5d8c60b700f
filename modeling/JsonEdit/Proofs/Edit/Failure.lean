import JsonEdit.Proofs.Edit.Obstacle
import JsonEdit.Proofs.Edit.Reread
import JsonEdit.Proofs.Path.Rejection

/-!
# How editing a text fails

* The document is read first, then the path, and then the tree is gone through. `Failure` has one
  case for each of these, and none of them speaks of the value.
* Main statement: whether an edit succeeds is the same for all values, and so is the error if it
  does not. What fails first is told, and printing never fails.
-/

namespace JsonEdit

variable {document path raw : String} {t v : Value} {p : Path} {e : EditError} {n : Nat}

/-! ## Kinds of errors -/

theorem category_of_readDocument (h : readDocument document = .error e) : e.category = .parse := by
  obtain ⟨m, -, rfl⟩ := mapError_eq_error_iff.1 h
  rfl

theorem category_of_readPath (h : readPath path = .error e) : e.category = .invalidPath := by
  obtain ⟨r, -, rfl⟩ := mapError_eq_error_iff.1 h
  rfl

theorem Path.StoppedAt.category_ne_serialize (h : p.StoppedAt t n e) :
    e.category ≠ .serialize := by
  obtain ⟨before, s, rest, c, -, -, -, hob⟩ := h
  cases hob <;> exact nofun

/-! ## Storing in a tree -/

/-- What stops a path is the same for every value to be stored. -/
theorem set_eq_error_iff_exists_stoppedAt : t.set p v = .error e ↔ ∃ n, p.StoppedAt t n e := by
  constructor
  · exact exists_stoppedAt
  · rintro ⟨n, hn⟩
    exact hn.set_eq

theorem set_eq_error_iff_find_or_assign :
    t.set p v = .error e ↔
      Target.find t p = .error e ∨ ∃ r, Target.find t p = .ok r ∧ r.assign v = .error e := by
  rw [Value.set]
  rcases Target.find t p with d | r
  · simp
  · rw [map_eq_error_iff]
    simp

/-! ## The whole edit -/

/-- How an edit fails, told by the document and the path alone. -/
inductive Failure (document path : String) : EditError → Prop where
  | document {e : EditError} (h : readDocument document = .error e) : Failure document path e
  | path {t : Value} {e : EditError} (ht : readDocument document = .ok t)
    (h : readPath path = .error e) : Failure document path e
  | tree {t : Value} {p : Path} {n : Nat} {e : EditError} (ht : readDocument document = .ok t)
    (hp : readPath path = .ok p) (h : p.StoppedAt t n e) : Failure document path e

theorem editDocument_eq_error_iff_failure :
    editDocument document path raw = .error e ↔ Failure document path e := by
  rw [editDocument_eq, bind_eq_error_iff]
  constructor
  · rintro (h | ⟨t, ht, h⟩)
    · exact .document h
    rcases bind_eq_error_iff.1 h with h | ⟨p, hp, h⟩
    · exact .path ht h
    · obtain ⟨n, hn⟩ := set_eq_error_iff_exists_stoppedAt.1 (map_eq_error_iff.1 h)
      exact .tree ht hp hn
  · intro h
    cases h with
    | document h => exact .inl h
    | path ht h => exact .inr ⟨_, ht, bind_eq_error_iff.2 (.inl h)⟩
    | tree ht hp h =>
      refine .inr ⟨_, ht, bind_eq_error_iff.2 (.inr ⟨_, hp, map_eq_error_iff.2 ?_⟩)⟩
      exact set_eq_error_iff_exists_stoppedAt.2 ⟨_, h⟩

theorem Failure.category_ne_serialize (h : Failure document path e) : e.category ≠ .serialize := by
  cases h with
  | document h => simp [category_of_readDocument h]
  | path ht h => simp [category_of_readPath h]
  | tree ht hp h => exact h.category_ne_serialize

theorem length_before_le {α : Type} {text : String} {before rest : List α} {a : α}
    (h : (before ++ a :: rest).length = (text.toList.splitOn '.').length) :
    before.length ≤ text.length := by
  have hcount : text.toList.count '.' ≤ text.length := by
    rw [← String.length_toList]
    exact List.count_le_length
  rw [length_splitOn, List.length_append, List.length_cons] at h
  omega

theorem Failure.segment?_le (h : Failure document path e) (hn : e.segment? = some n) :
    n ≤ path.length := by
  cases h with
  | document h =>
    obtain ⟨m, -, rfl⟩ := mapError_eq_error_iff.1 h
    cases hn
  | path ht h =>
    obtain ⟨r, hr, rfl⟩ := readPath_eq_error_iff.1 h
    cases hr with
    | noText => cases hn
    | piece _ hpieces =>
      obtain rfl := Option.some.inj hn
      exact length_before_le (congrArg List.length hpieces.symm)
  | @tree t p k e ht hp h =>
    obtain rfl : k = n := Option.some.inj (h.segment?.symm.trans hn)
    obtain ⟨before, s, rest, c, hsegments, rfl, -, -⟩ := h
    obtain ⟨-, hpieces⟩ := Path.parse_eq_ok_iff.1 (mapError_eq_ok_iff.1 hp)
    rw [hsegments] at hpieces
    exact length_before_le hpieces.length_eq.symm

theorem exists_editDocument_eq_ok_iff :
    (∃ text, editDocument document path raw = .ok text) ↔ ∀ e, ¬ Failure document path e := by
  rw [exists_eq_ok_iff]
  exact forall_congr' fun e => not_congr editDocument_eq_error_iff_failure

/-- Whether and how an edit fails does not depend on the value. A document that cannot be read is
reported for every path, and a path that cannot be read for every tree; then comes what finding the
container or storing in it reports. That the result cannot be written is never reported. -/
theorem editDocument_fails_by_stage (document : String) :
    (∀ path raw raw',
      ((∃ text, editDocument document path raw = .ok text) ↔
        ∃ text, editDocument document path raw' = .ok text) ∧
      ∀ e, editDocument document path raw = .error e ↔
        editDocument document path raw' = .error e) ∧
    (∀ e, readDocument document = .error e →
      e.category = .parse ∧ ∀ path raw, editDocument document path raw = .error e) ∧
    (∀ t path e, readDocument document = .ok t → readPath path = .error e →
      e.category = .invalidPath ∧ ∀ raw, editDocument document path raw = .error e) ∧
    (∀ t path p, readDocument document = .ok t → readPath path = .ok p →
      ∀ raw e, editDocument document path raw = .error e ↔
        Target.find t p = .error e ∨
          ∃ r, Target.find t p = .ok r ∧ r.assign (infer raw) = .error e) ∧
    ∀ path raw e, editDocument document path raw = .error e → e.category ≠ .serialize := by
  refine ⟨fun path raw raw' => ⟨?_, fun e => ?_⟩, fun e h => ⟨category_of_readDocument h, ?_⟩,
    fun t path e ht h => ⟨category_of_readPath h, ?_⟩, fun t path p ht hp raw e => ?_,
    fun path raw e h => ?_⟩
  · rw [exists_editDocument_eq_ok_iff, exists_editDocument_eq_ok_iff]
  · rw [editDocument_eq_error_iff_failure, editDocument_eq_error_iff_failure]
  · intro path raw
    exact editDocument_eq_error_iff_failure.2 (.document h)
  · intro raw
    exact editDocument_eq_error_iff_failure.2 (.path ht h)
  · rw [← set_eq_error_iff_find_or_assign, editDocument_eq, ht, hp]
    exact map_eq_error_iff
  · exact (editDocument_eq_error_iff_failure.1 h).category_ne_serialize

theorem editDocument_fails_below_null :
    readDocument "\x7b\"a\":null\x7d" = .ok (.object [("a", .null)]) ∧
      editDocument "\x7b\"a\":null\x7d" "a.b" "1" =
        .error (.mismatch "a.b" 1 .container .null) ∧
      editDocument "\x7b\"a\":null\x7d" "a.b" "[" =
        .error (.mismatch "a.b" 1 .container .null) ∧
      ∃ e, readPath "a.b." = .error e ∧ e.category = .invalidPath ∧
        editDocument "\x7b\"a\":null\x7d" "a.b." "1" = .error e := by
  have hpath : readPath "a.b" = .ok ⟨"a.b", [.key "a"], .key "b"⟩ := rfl
  have hempty : ∃ e, readPath "a.b." = .error e := ⟨_, rfl⟩
  obtain ⟨e, he⟩ := hempty
  obtain ⟨hvalue, -, hrejected, htree, -⟩ :=
    editDocument_fails_by_stage "\x7b\"a\":null\x7d"
  have hone : editDocument "\x7b\"a\":null\x7d" "a.b" "1" =
      .error (.mismatch "a.b" 1 .container .null) :=
    (htree _ _ _ readDocument_member_null hpath _ _).2 (.inl rfl)
  obtain ⟨hcategory, hevery⟩ := hrejected _ _ _ readDocument_member_null he
  exact ⟨readDocument_member_null, hone, ((hvalue "a.b" "1" "[").2 _).1 hone, e, he, hcategory,
    hevery "1"⟩

end JsonEdit
