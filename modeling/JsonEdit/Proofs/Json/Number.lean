import JsonEdit.Edit.Document
import JsonEdit.Proofs.Json.Fraction
import JsonEdit.Proofs.Json.Steps
import JsonEdit.Proofs.Outcome

/-!
# Numbers in their place

* `x.reread` is the value that is read where the number `x` is printed. A fraction may come back as
  another number, or as null; it is always read.
* `Value.IntegerFits`, `Value.FractionSurvives`: printed alone, the number is read back.
* `writeNumber_cases`: the text of a number is a numeral that denotes `x.reread`, or `null`, so the
  number is read as `x.reread` wherever it stands.
-/

namespace JsonEdit

/-! ## Survival -/

namespace Value

/-- An integer fits 64 bits, with a sign or without one. -/
def IntegerFits : Value → Prop
  | .number (.integer n) => -2 ^ 63 ≤ n ∧ n < 2 ^ 64
  | _ => True

/-- A fraction is read back when it is printed alone. -/
def FractionSurvives : Value → Prop
  | .number (.fraction x) =>
    readDocument (Json.print (.number (.fraction x))) = .ok (.number (.fraction x))
  | _ => True

end Value

theorem readDocument_eq_ok_iff {text : String} {v : Value} :
    readDocument text = .ok v ↔ Json.readValue [] text.toList = .ok v := by
  rw [readDocument, mapError_eq_ok_iff, Json.read, mapError_eq_ok_iff]

/-- What is read where a number is printed alone. -/
def Number.reread (x : Number) : Value :=
  match readDocument (Json.print (.number x)) with
  | .ok v => v
  | .error _ => .null

theorem Number.reread_of_readDocument {x : Number} {v : Value}
    (h : readDocument (Json.print (.number x)) = .ok v) : x.reread = v := by
  unfold reread
  rw [h]

namespace Json

variable {stack : List Frame} {bs r : List Char}

theorem not_blank_of_startsNumber {c : Char} (hc : startsNumber c = true) :
    isBlank c = false ∧ c ≠ ']' := by
  have hne : ∀ d, startsNumber d = false → c ≠ d := by
    rintro d hd rfl
    rw [hc] at hd
    exact Bool.noConfusion hd
  refine ⟨?_, hne _ (by decide)⟩
  rw [Bool.eq_false_iff]
  intro hblank
  simp only [isBlank, Bool.or_eq_true, decide_eq_true_eq] at hblank
  rcases hblank with ((h | h) | h) | h <;> exact hne _ (by decide) h

theorem numeral_of_readNumber {s r : List Char} {x : Number} {h : r.length < s.length}
    (hread : readNumber s = .ok (x, ⟨r, h⟩)) :
    ∃ w n, s = w ++ r ∧ Numeral.Writes w n ∧ n.toNumber = .ok x := by
  unfold readNumber at hread
  split at hread
  · simp at hread
  next n r' h' hn =>
  split at hread
  · next y hy =>
    cases hread
    obtain ⟨w, hw, hwrites⟩ := Numeral.writes_of_read hn
    exact ⟨w, n, hw, hwrites, hy⟩
  · simp at hread

theorem readValue_numeral {w : List Char} {n : Numeral} {x : Number} (hw : Numeral.Writes w n)
    (hx : n.toNumber = .ok x) (hb : AllBlank bs) (hr : Numeral.EndsNumber r) :
    readValue stack (bs ++ (w ++ r)) = goOn stack (.number x) r := by
  obtain ⟨c, t, rfl, hc⟩ := hw.head?
  obtain ⟨h, hread⟩ : ∃ h, readNumber (c :: (t ++ r)) = .ok (x, ⟨r, h⟩) :=
    readNumber_append hw hx hr
  obtain ⟨h', hnext⟩ := next?_append hb (not_blank_of_startsNumber hc).1 (t ++ r)
  rw [List.cons_append]
  exact readValue_scalar (readOpening_number hnext hc hread)

theorem readValue_null (hb : AllBlank bs) :
    readValue stack (bs ++ (['n', 'u', 'l', 'l'] ++ r)) = goOn stack .null r := by
  obtain ⟨h, hnext⟩ := next?_append (c := 'n') hb rfl (['u', 'l', 'l'] ++ r)
  exact readValue_word hnext rfl

/-- Printed alone, a number is all there is to read. -/
theorem reread_of_readValue {x : Number} {v : Value}
    (h : readValue [] ([] ++ (writeNumber x ++ [])) = goOn [] v []) : x.reread = v := by
  refine Number.reread_of_readDocument (readDocument_eq_ok_iff.2 ?_)
  rw [print, String.toList_ofList]
  rwa [List.nil_append, List.append_nil, goOn_end (List.forall_mem_nil _)] at h

theorem reread_of_writes {x y : Number} {n : Numeral} (hw : Numeral.Writes (writeNumber x) n)
    (hy : n.toNumber = .ok y) : x.reread = .number y :=
  reread_of_readValue
    (readValue_numeral hw hy (List.forall_mem_nil _) (by simp [Numeral.EndsNumber]))

theorem writeNumber_cases {x : Number} (hx : Value.IntegerFits (.number x)) :
    (writeNumber x = ['n', 'u', 'l', 'l'] ∧ x.reread = .null) ∨
      ∃ n y, Numeral.Writes (writeNumber x) n ∧ n.toNumber = .ok y ∧ x.reread = .number y := by
  cases x with
  | integer n =>
    have hw : Numeral.Writes (writeNumber (.integer n)) (Numeral.ofInt n) := writes_signed n
    have hy := toNumber_ofInt hx
    exact .inr ⟨_, _, hw, hy, reread_of_writes hw hy⟩
  | fraction x =>
    rcases exists_number_of_writeFloat x with hnull | ⟨n, y, hw, hy⟩
    · refine .inl ⟨hnull, reread_of_readValue ?_⟩
      rw [writeNumber, hnull]
      exact readValue_null (List.forall_mem_nil _)
    · exact .inr ⟨n, y, hw, hy, reread_of_writes (x := .fraction x) hw hy⟩

end Json

theorem Number.reread_eq_self {x : Number} (hi : Value.IntegerFits (.number x))
    (hf : Value.FractionSurvives (.number x)) : x.reread = .number x := by
  cases x with
  | integer n => exact Json.reread_of_writes (Json.writes_signed n) (Json.toNumber_ofInt hi)
  | fraction x => exact reread_of_readDocument hf

end JsonEdit
