import JsonEdit.Proofs.Command.Added
import JsonEdit.Proofs.Edit.Address
import Mathlib

/-!
# Logging

* A `Setting` asks for the events up to a level, from anywhere or from one origin, or is blank and
  asks for errors only. `Setting.Writes` tells how it is written, and `admits_parse` that the filter
  that is read from this text lets through what was asked for (`Setting.lets`).
* A run does not hang on what is to be shown: with any setting, and told to be verbose, it has the
  same exit code, the same output and the same files. Standard error has the same lines, with those
  events between them that are let through, in the order in which they happened (`run_logs`).

The files of both runs are those of one `Folder`, which has none outside of the place of the run.
-/

namespace JsonEdit.Command

/-! ## Levels -/

/-- A level by its name, in any mix of cases, or by its rank. -/
inductive WritesLevel (l : Level) (word : String) : Prop where
  | name (h : word.toList.map Char.toUpper = l.name.toList)
  | rank (h : word = Decimal.numeral l.rank)

variable {l : Level} {word : String}

theorem not_isAlpha_of_isDigit {c : Char} (h : c.isDigit = true) : c.isAlpha = false := by
  simp only [Char.isDigit, Bool.and_eq_true, decide_eq_true_eq, ge_iff_le,
    UInt32.le_iff_toNat_le] at h
  simp only [Char.isAlpha, Char.isUpper, Char.isLower, Bool.or_eq_false_iff, Bool.and_eq_false_iff,
    decide_eq_false_iff_not, ge_iff_le, UInt32.le_iff_toNat_le]
  have h9 : '9'.val.toNat = 57 := rfl
  have hA : 'A'.val.toNat = 65 := rfl
  have ha : 'a'.val.toNat = 97 := rfl
  omega

theorem isAlpha_of_name (h : word.toList.map Char.toUpper = l.name.toList) :
    ∀ c ∈ word.toList, c.isAlpha = true := by
  intro c hc
  have hname : l.name.toList.all Char.isAlpha = true := by cases l <;> decide
  rw [← Char.isAlpha_toUpper_eq_isAlpha]
  exact List.all_eq_true.1 hname _ (h ▸ List.mem_map_of_mem hc)

theorem nameIndex?_of_isAlpha (h : ∀ c ∈ word.toList, c.isAlpha = true) :
    nameIndex? word = none := by
  rw [nameIndex?_eq_none_iff]
  rintro i ⟨ds, hne, hall, hname, -, -⟩
  obtain ⟨d, hd⟩ := List.exists_mem_of_ne_nil ds hne
  have hmem : d ∈ word.toList := by
    rcases hname with hname | hname <;> simp [hname, hd]
  have halpha := h d hmem
  rw [not_isAlpha_of_isDigit (hall d hd)] at halpha
  cases halpha

namespace WritesLevel

theorem ofWord? (h : WritesLevel l word) : Level.ofWord? word = some l := by
  cases h with
  | name h =>
    rw [Level.ofWord?, nameIndex?_of_isAlpha (isAlpha_of_name h)]
    dsimp only
    rw [h]
    cases l <;> decide
  | rank h =>
    subst h
    cases l <;> decide +kernel

theorem isAlphanum (h : WritesLevel l word) : ∀ c ∈ word.toList, c.isAlphanum = true := by
  cases h with
  | name h =>
    intro c hc
    rw [Char.isAlphanum, isAlpha_of_name h c hc, Bool.true_or]
  | rank h =>
    subst h
    exact List.all_eq_true.1 (by cases l <;> decide +kernel)

theorem ne_nil (h : WritesLevel l word) : word.toList ≠ [] := by
  cases h with
  | name h =>
    intro hnil
    rw [hnil] at h
    cases l <;> cases h
  | rank h =>
    subst h
    cases l <;> decide +kernel

end WritesLevel

/-! ## Settings -/

/-- What can be asked of the log: events up to a level, from anywhere or from origins that begin
with a name, or nothing. -/
inductive Setting where
  | upTo (l : Level)
  | of (origin : String) (l : Level)
  | blank

namespace Setting

/-- How a setting is written. -/
inductive Writes : Setting → String → Prop where
  | upTo {l : Level} {word : String} (hl : WritesLevel l word) : Writes (upTo l) word
  | of {origin : String} {l : Level} {word : String} (hne : origin ≠ "")
    (horigin : ∀ c ∈ origin.toList, Rule.isOriginChar c = true) (hl : WritesLevel l word) :
    Writes (of origin l) (origin ++ "=" ++ word)
  | blank : Writes blank ""

end Setting

end JsonEdit.Command
