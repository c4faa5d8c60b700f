import JsonEdit.Proofs.Json.RoundTrip

/-!
# Which rule gives the value of a free text

`StandsFor text v` has one case for each rule, and each case says that no rule before it fits.
`infer_eq_iff`: the value that a text stands for is the one that these cases give it.
-/

namespace JsonEdit

namespace Infer

/-- The text is no document. -/
def NotJson (text : String) : Prop :=
  ∀ v, readDocument text ≠ .ok v

/-- The text stands for the value by the first rule that fits. -/
inductive StandsFor (text : String) : Value → Prop where
  | json {v : Value} (hread : readDocument text = .ok v) : StandsFor text v
  | word {v : Value} (hjson : NotJson text) (hword : word? text.toList = some v) : StandsFor text v
  | integer {n : Int} (hjson : NotJson text) (hword : word? text.toList = none)
    (hinteger : integer? text.toList = some n) : StandsFor text (.number (.integer n))
  | decimal {x : Float} (hjson : NotJson text) (hword : word? text.toList = none)
    (hinteger : integer? text.toList = none) (hdecimal : decimal? text.toList = some x) :
    StandsFor text (.number (.fraction x))
  | verbatim (hjson : NotJson text) (hword : word? text.toList = none)
    (hinteger : integer? text.toList = none) (hdecimal : decimal? text.toList = none) :
    StandsFor text (.string text)

variable {text : String}

theorem readDocument_of_read {v : Value} (h : Json.read text = .ok v) :
    readDocument text = .ok v :=
  mapError_eq_ok_iff.2 h

theorem notJson_of_read {m : Json.Malformed} (h : Json.read text = .error m) : NotJson text := by
  intro v hv
  rw [readDocument, mapError_eq_ok_iff, h] at hv
  cases hv

theorem NotJson.exists_read (h : NotJson text) : ∃ m, Json.read text = .error m := by
  rcases hread : Json.read text with m | v
  · exact ⟨m, rfl⟩
  · exact absurd (readDocument_of_read hread) (h v)

end Infer

open Infer

variable {text : String} {v : Value}

theorem standsFor_infer (text : String) : StandsFor text (infer text) := by
  fun_cases infer text with
  | case1 v hread => exact .json (readDocument_of_read hread)
  | case2 m hread v hword => exact .word (notJson_of_read hread) hword
  | case3 m hread hword n hinteger => exact .integer (notJson_of_read hread) hword hinteger
  | case4 m hread hword hinteger x hdecimal =>
    exact .decimal (notJson_of_read hread) hword hinteger hdecimal
  | case5 m hread hword hinteger hdecimal =>
    exact .verbatim (notJson_of_read hread) hword hinteger hdecimal

theorem infer_of_standsFor (h : StandsFor text v) : infer text = v := by
  cases h with
  | json hread => exact infer_of_readDocument hread
  | word hjson hword =>
    obtain ⟨m, hread⟩ := hjson.exists_read
    simp only [infer, hread, hword]
  | integer hjson hword hinteger =>
    obtain ⟨m, hread⟩ := hjson.exists_read
    simp only [infer, hread, hword, hinteger]
  | decimal hjson hword hinteger hdecimal =>
    obtain ⟨m, hread⟩ := hjson.exists_read
    simp only [infer, hread, hword, hinteger, hdecimal]
  | verbatim hjson hword hinteger hdecimal =>
    obtain ⟨m, hread⟩ := hjson.exists_read
    simp only [infer, hread, hword, hinteger, hdecimal]

theorem infer_eq_iff : infer text = v ↔ StandsFor text v := by
  constructor
  · rintro rfl
    exact standsFor_infer text
  · exact infer_of_standsFor

end JsonEdit
