import JsonEdit.Json.Reader
import JsonEdit.Json.Printer
import Mathlib.Algebra.Group.Int.Defs
import Mathlib.Algebra.Group.Nat.Defs

/-!
# Numbers as they are written

* `Numeral.Writes w n`: the text `w` writes the numeral `n`.
* `read_append`: such a text is read as `n` wherever it stands before something that does not go on
  with the number; `writes_of_read`: only such texts are read.
* `toNumber_eq_integer_iff`, `integer?_eq_integer_iff`: which numerals denote integers.
* `writes_signed`, `toNumber_ofInt`: an integer of 64 bits is written by a numeral that denotes it.
-/

namespace JsonEdit.Json

open Decimal (absorb run value)

namespace Numeral

/-! ## Written forms -/

def AllDigits (ds : List Char) : Prop :=
  ∀ d ∈ ds, d.isDigit = true

/-- The digits before the point. -/
inductive WritesWhole : List Char → Prop where
  | zero : WritesWhole ['0']
  | digits {d : Char} {ds : List Char} (h0 : d ≠ '0') (hd : d.isDigit = true) (hds : AllDigits ds) :
    WritesWhole (d :: ds)

/-- A point and the digits behind it, or nothing. -/
inductive WritesFraction : List Char → List Char → Prop where
  | absent : WritesFraction [] []
  | digits {ds : List Char} (hne : ds ≠ []) (hds : AllDigits ds) : WritesFraction ('.' :: ds) ds

/-- The sign of an exponent, or nothing. -/
inductive WritesSign : List Char → Bool → Prop where
  | absent : WritesSign [] false
  | plus : WritesSign ['+'] false
  | minus : WritesSign ['-'] true

/-- An exponent with its mark, or nothing. -/
inductive WritesExponent : List Char → Option Exponent → Prop where
  | absent : WritesExponent [] none
  | digits {mark : Char} {sign ds : List Char} {negative : Bool} (hm : mark = 'e' ∨ mark = 'E')
    (hs : WritesSign sign negative) (hne : ds ≠ []) (hds : AllDigits ds) :
    WritesExponent (mark :: (sign ++ ds)) (some ⟨negative, ds⟩)

/-- The text `w` writes the numeral `n`. -/
def Writes (w : List Char) (n : Numeral) : Prop :=
  ∃ f e, w = (if n.negative then ['-'] else []) ++ (n.whole ++ (f ++ e)) ∧ WritesWhole n.whole ∧
    WritesFraction f n.fraction ∧ WritesExponent e n.exponent

/-- Nothing at the front of `r` goes on with a number. -/
def EndsNumber (r : List Char) : Prop :=
  ∀ c ∈ r.head?, c.isDigit = false ∧ c ≠ '.' ∧ c ≠ 'e' ∧ c ≠ 'E'

variable {cut : Cause} {r s : List Char}

/-! ## Reading what is written -/

theorem run_of_allDigits {ds : List Char} (hds : AllDigits ds)
    (hr : ∀ c ∈ r.head?, c.isDigit = false) : run (ds ++ r) = (ds, r) :=
  Decimal.run_append ds r hds hr

theorem readWhole_append (cut : Cause) {w : List Char} (hw : WritesWhole w)
    (hr : ∀ c ∈ r.head?, c.isDigit = false) : ∃ h, readWhole cut (w ++ r) = .ok (w, ⟨r, h⟩) := by
  cases hw with
  | zero =>
    refine ⟨by simp, ?_⟩
    have : r.head?.any Char.isDigit = false := by
      cases r with
      | nil => rfl
      | cons c r => simpa using hr c
    simp [readWhole, this]
  | @digits d ds h0 hd hds =>
    refine ⟨by simp only [List.length_append, List.length_cons]; omega, ?_⟩
    simp [readWhole, h0, hd, run_of_allDigits hds hr]

theorem readDigits_append (cut : Cause) {ds : List Char} (hne : ds ≠ []) (hds : AllDigits ds)
    (hr : ∀ c ∈ r.head?, c.isDigit = false) : ∃ h, readDigits cut (ds ++ r) = .ok (ds, ⟨r, h⟩) := by
  cases ds with
  | nil => exact absurd rfl hne
  | cons d ds =>
    refine ⟨by simp only [List.length_append, List.length_cons]; omega, ?_⟩
    have hd : d.isDigit = true := hds d List.mem_cons_self
    have hds' : AllDigits ds := fun c hc => hds c (List.mem_cons_of_mem _ hc)
    simp [readDigits, hd, run_of_allDigits hds' hr]

theorem readFraction_append (cut : Cause) {f ds : List Char} (hf : WritesFraction f ds)
    (hr : ∀ c ∈ r.head?, c.isDigit = false ∧ c ≠ '.') :
    ∃ h, readFraction cut (f ++ r) = .ok (ds, ⟨r, h⟩) := by
  cases hf with
  | absent =>
    refine ⟨by simp, ?_⟩
    cases r with
    | nil => rfl
    | cons c r => simp [readFraction, (hr c rfl).2]
  | digits hne hds =>
    obtain ⟨h, e⟩ := readDigits_append cut hne hds fun c hc => (hr c hc).1
    refine ⟨by simp; omega, ?_⟩
    simp [readFraction, e]

theorem readSign_append {sign : List Char} {negative : Bool} (hs : WritesSign sign negative)
    (hr : ∀ c ∈ r.head?, c ≠ '+' ∧ c ≠ '-') :
    ∃ h, readSign (sign ++ r) = (negative, ⟨r, h⟩) := by
  cases hs with
  | absent =>
    refine ⟨by simp, ?_⟩
    cases r with
    | nil => rfl
    | cons c r =>
      have hc := hr c rfl
      simp [readSign, hc.1, hc.2]
  | plus => exact ⟨by simp, by simp [readSign]⟩
  | minus => exact ⟨by simp, by simp [readSign]⟩

theorem readExponent_append (cut : Cause) {w : List Char} {x : Option Exponent}
    (hw : WritesExponent w x) (hr : EndsNumber r) :
    ∃ h, readExponent cut (w ++ r) = .ok (x, ⟨r, h⟩) := by
  cases hw with
  | absent =>
    refine ⟨by simp, ?_⟩
    cases r with
    | nil => rfl
    | cons c r =>
      have hc := hr c rfl
      simp [readExponent, hc.2.2.1, hc.2.2.2]
  | @digits mark sign ds negative hm hs hne hds =>
    rw [List.cons_append, List.append_assoc]
    refine ⟨by simp; omega, ?_⟩
    have hsigned : ∀ c ∈ (ds ++ r).head?, c ≠ '+' ∧ c ≠ '-' := by
      intro c hc
      cases ds with
      | nil => exact absurd rfl hne
      | cons d ds =>
        obtain rfl : d = c := by simpa using hc
        have hd : d.isDigit = true := hds d List.mem_cons_self
        constructor <;> rintro rfl <;> exact absurd hd (by decide)
    obtain ⟨h₁, e₁⟩ := readSign_append hs hsigned
    obtain ⟨h₂, e₂⟩ := readDigits_append cut hne hds fun c hc => (hr c hc).1
    unfold readExponent
    dsimp only
    rw [if_pos hm, e₁]
    dsimp only
    rw [e₂]

theorem head?_append_ends {w : List Char} {P : Char → Prop} (hw : ∀ c ∈ w.head?, P c)
    (hr : ∀ c ∈ r.head?, P c) : ∀ c ∈ (w ++ r).head?, P c := by
  cases w with
  | nil => exact hr
  | cons d w => simpa using hw

theorem WritesExponent.head? {w : List Char} {x : Option Exponent} (hw : WritesExponent w x) :
    ∀ c ∈ w.head?, c.isDigit = false ∧ c ≠ '.' := by
  cases hw with
  | absent => simp
  | @digits mark sign ds negative hm hs hne hds =>
    intro c hc
    obtain rfl : mark = c := by simpa using hc
    rcases hm with rfl | rfl <;> decide

theorem WritesFraction.head? {f ds : List Char} (hf : WritesFraction f ds) :
    ∀ c ∈ f.head?, c.isDigit = false := by
  cases hf with
  | absent => simp
  | digits hne hds =>
    intro c hc
    obtain rfl : '.' = c := by simpa using hc
    decide

theorem WritesWhole.head? {w : List Char} (hw : WritesWhole w) :
    ∃ d ds, w = d :: ds ∧ d.isDigit = true := by
  cases hw with
  | zero => exact ⟨_, _, rfl, by decide⟩
  | digits h0 hd hds => exact ⟨_, _, rfl, hd⟩

theorem readUnsigned_append (cut : Cause) {n : Numeral} {f e : List Char} (hw : WritesWhole n.whole)
    (hf : WritesFraction f n.fraction) (he : WritesExponent e n.exponent) (hr : EndsNumber r) :
    ∃ h, readUnsigned cut n.negative (n.whole ++ (f ++ (e ++ r))) = .ok (n, ⟨r, h⟩) := by
  have hr' : ∀ c ∈ r.head?, c.isDigit = false ∧ c ≠ '.' := fun c hc => ⟨(hr c hc).1, (hr c hc).2.1⟩
  have her := head?_append_ends he.head? hr'
  have hfer := head?_append_ends hf.head? fun c hc => (her c hc).1
  obtain ⟨h₁, e₁⟩ := readWhole_append cut hw hfer
  obtain ⟨h₂, e₂⟩ := readFraction_append cut hf her
  obtain ⟨h₃, e₃⟩ := readExponent_append cut he hr
  refine ⟨by omega, ?_⟩
  simp [readUnsigned, e₁, e₂, e₃]

theorem read_of_ne_minus {c : Char} {s : List Char} (hs : s.head? = some c) (hc : c ≠ '-') :
    read cut s = readUnsigned cut false s := by
  cases s with
  | nil => simp at hs
  | cons d t =>
    obtain rfl : d = c := Option.some.inj hs
    unfold read
    dsimp only
    rw [if_neg hc]

theorem Writes.head? {w : List Char} {n : Numeral} (hw : Writes w n) :
    ∃ c t, w = c :: t ∧ startsNumber c = true := by
  obtain ⟨f, e, rfl, hwhole, -, -⟩ := hw
  obtain ⟨d, ds, hd, hdigit⟩ := hwhole.head?
  rw [hd]
  split
  · exact ⟨'-', _, rfl, rfl⟩
  · exact ⟨d, _, rfl, by simp [startsNumber, hdigit]⟩

theorem read_append (cut : Cause) {w : List Char} {n : Numeral} (hw : Writes w n)
    (hr : EndsNumber r) : ∃ h, read cut (w ++ r) = .ok (n, ⟨r, h⟩) := by
  obtain ⟨f, e, rfl, hwhole, hf, he⟩ := hw
  obtain ⟨h, hread⟩ := readUnsigned_append cut hwhole hf he hr
  rw [List.append_assoc, List.append_assoc, List.append_assoc]
  cases hn : n.negative with
  | true =>
    rw [hn] at hread
    refine ⟨Nat.lt_succ_of_lt h, ?_⟩
    show read cut ('-' :: (n.whole ++ (f ++ (e ++ r)))) = _
    unfold read
    dsimp only
    rw [if_pos rfl, hread]
  | false =>
    rw [hn] at hread
    refine ⟨h, ?_⟩
    show read cut (n.whole ++ (f ++ (e ++ r))) = _
    obtain ⟨d, ds, hd, hdigit⟩ := hwhole.head?
    have hminus : d ≠ '-' := by
      rintro rfl
      exact absurd hdigit (by decide)
    rw [read_of_ne_minus (c := d) (by simp [hd]) hminus]
    exact hread

/-! ## What is read is written -/

theorem run_eq (s : List Char) :
    s = (run s).1 ++ (run s).2 ∧ AllDigits (run s).1 := by
  refine ⟨(List.takeWhile_append_dropWhile).symm, fun c hc => ?_⟩
  exact List.all_eq_true.1 List.all_takeWhile c hc

theorem writesWhole_of_readWhole {w : List Char} {h : r.length < s.length}
    (hread : readWhole cut s = .ok (w, ⟨r, h⟩)) : s = w ++ r ∧ WritesWhole w := by
  unfold readWhole at hread
  split at hread
  · simp at hread
  · next d t =>
    split at hread
    · next h0 =>
      subst h0
      split at hread
      · simp at hread
      · cases hread
        exact ⟨rfl, .zero⟩
    · next h0 =>
      split at hread
      · next hd =>
        cases hread
        obtain ⟨ht, hds⟩ := run_eq t
        exact ⟨congrArg (d :: ·) ht, .digits h0 hd hds⟩
      · simp at hread

theorem allDigits_of_readDigits {ds : List Char} {h : r.length < s.length}
    (hread : readDigits cut s = .ok (ds, ⟨r, h⟩)) : s = ds ++ r ∧ ds ≠ [] ∧ AllDigits ds := by
  unfold readDigits at hread
  split at hread
  · simp at hread
  · next d t =>
    split at hread
    · next hd =>
      cases hread
      obtain ⟨ht, hds⟩ := run_eq t
      exact ⟨congrArg (d :: ·) ht, by simp, List.forall_mem_cons.2 ⟨hd, hds⟩⟩
    · simp at hread

theorem writesFraction_of_readFraction {ds : List Char} {h : r.length ≤ s.length}
    (hread : readFraction cut s = .ok (ds, ⟨r, h⟩)) : ∃ f, s = f ++ r ∧ WritesFraction f ds := by
  unfold readFraction at hread
  split at hread
  · cases hread
    exact ⟨[], rfl, .absent⟩
  · next c t =>
    split at hread
    · next hc =>
      subst hc
      split at hread
      · simp at hread
      · next ds' r' h' hd =>
        cases hread
        obtain ⟨ht, hne, hds⟩ := allDigits_of_readDigits hd
        exact ⟨'.' :: ds, congrArg ('.' :: ·) ht, .digits hne hds⟩
    · cases hread
      exact ⟨[], rfl, .absent⟩

theorem writesSign_of_readSign {negative : Bool} {h : r.length ≤ s.length}
    (hread : readSign s = (negative, ⟨r, h⟩)) :
    ∃ sign, s = sign ++ r ∧ WritesSign sign negative := by
  unfold readSign at hread
  split at hread
  · cases hread
    exact ⟨[], rfl, .absent⟩
  · split at hread
    · next hc =>
      cases hread
      exact ⟨['-'], hc ▸ rfl, .minus⟩
    · split at hread
      · next hc =>
        cases hread
        exact ⟨['+'], hc ▸ rfl, .plus⟩
      · cases hread
        exact ⟨[], rfl, .absent⟩

theorem writesExponent_of_readExponent {x : Option Exponent} {h : r.length ≤ s.length}
    (hread : readExponent cut s = .ok (x, ⟨r, h⟩)) : ∃ e, s = e ++ r ∧ WritesExponent e x := by
  unfold readExponent at hread
  split at hread
  · cases hread
    exact ⟨[], rfl, .absent⟩
  · next c t =>
    split at hread
    · next hc =>
      split at hread
      next negative r₁ h₁ hsign =>
      split at hread
      · simp at hread
      · next ds r₂ h₂ hd =>
        cases hread
        obtain ⟨sign, rfl, hs⟩ := writesSign_of_readSign hsign
        obtain ⟨rfl, hne, hds⟩ := allDigits_of_readDigits hd
        exact ⟨c :: (sign ++ ds), by simp, .digits hc hs hne hds⟩
    · cases hread
      exact ⟨[], rfl, .absent⟩

theorem writes_of_readUnsigned {negative : Bool} {n : Numeral} {h : r.length < s.length}
    (hread : readUnsigned cut negative s = .ok (n, ⟨r, h⟩)) :
    n.negative = negative ∧ ∃ f e, s = n.whole ++ (f ++ e) ++ r ∧ WritesWhole n.whole ∧
      WritesFraction f n.fraction ∧ WritesExponent e n.exponent := by
  unfold readUnsigned at hread
  split at hread
  · simp at hread
  next whole r₁ h₁ hwhole =>
  split at hread
  · simp at hread
  next fraction r₂ h₂ hfraction =>
  split at hread
  · simp at hread
  next exponent r₃ h₃ hexponent =>
  cases hread
  obtain ⟨rfl, hw⟩ := writesWhole_of_readWhole hwhole
  obtain ⟨f, rfl, hf⟩ := writesFraction_of_readFraction hfraction
  obtain ⟨e, rfl, he⟩ := writesExponent_of_readExponent hexponent
  exact ⟨rfl, f, e, by simp, hw, hf, he⟩

theorem writes_of_read {n : Numeral} {h : r.length < s.length}
    (hread : read cut s = .ok (n, ⟨r, h⟩)) : ∃ w, s = w ++ r ∧ Writes w n := by
  unfold read at hread
  split at hread
  · simp at hread
  next c t =>
  split at hread
  · next hc =>
    subst hc
    split at hread
    · simp at hread
    next n' r' h' hu =>
    cases hread
    obtain ⟨hn, f, e, rfl, hw, hf, he⟩ := writes_of_readUnsigned hu
    refine ⟨'-' :: (n.whole ++ (f ++ e)), by simp, f, e, ?_, hw, hf, he⟩
    rw [hn, if_pos rfl, List.singleton_append]
  · obtain ⟨hn, f, e, hs, hw, hf, he⟩ := writes_of_readUnsigned hread
    refine ⟨n.whole ++ (f ++ e), hs, f, e, ?_, hw, hf, he⟩
    rw [hn, if_neg Bool.false_ne_true, List.nil_append]

end Numeral

/-! ## Integers -/

theorem writesWhole_digits (n : Nat) : Numeral.WritesWhole (Decimal.digits n) := by
  have hall : Numeral.AllDigits (Decimal.digits n) := fun d hd => Decimal.isDigit_of_mem_digits hd
  rcases Nat.eq_zero_or_pos n with rfl | hpos
  · rw [Decimal.digits]
    exact .zero
  · have hhead := Decimal.head_digits_ne_zero hpos
    cases hd : Decimal.digits n with
    | nil => exact absurd hd (Decimal.digits_ne_nil n)
    | cons d ds =>
      rw [hd] at hall hhead
      obtain ⟨hdigit, hds⟩ := List.forall_mem_cons.1 hall
      exact .digits (fun h => hhead (h ▸ rfl)) hdigit hds

/-- The numeral that writes an integer. -/
def Numeral.ofInt : Int → Numeral
  | .ofNat n => ⟨false, Decimal.digits n, [], none⟩
  | .negSucc n => ⟨true, Decimal.digits (n + 1), [], none⟩

theorem writes_signed (n : Int) : Numeral.Writes (Decimal.signed n) (Numeral.ofInt n) := by
  refine ⟨[], [], ?_, ?_, ?_, ?_⟩
  · cases n <;> simp [Decimal.signed, Numeral.ofInt]
  · cases n <;> exact writesWhole_digits _
  · cases n <;> exact .absent
  · cases n <;> exact .absent

namespace Numeral

variable {n : Numeral} {i : Int}

theorem absorb_whole (hwhole : value n.whole < significandBound) :
    absorb significandBound 0 n.whole = (value n.whole, []) :=
  (Decimal.absorb_eq_iff (by decide) n.whole).2 ⟨rfl, hwhole⟩

/-- The digits before the point with the sign. -/
def signedWhole (n : Numeral) : Int :=
  if n.negative then -(value n.whole : Int) else value n.whole

theorem integer?_eq_integer_iff :
    n.integer? = some (.integer i) ↔
      i = n.signedWhole ∧ -2 ^ 63 ≤ i ∧ i < 2 ^ 64 ∧ (n.negative = true → i ≠ 0) := by
  have hbound : significandBound = 2 ^ 64 := rfl
  have hsigned : signedBound = 2 ^ 63 := rfl
  unfold integer? signedWhole
  by_cases hwhole : value n.whole < significandBound
  · rw [absorb_whole hwhole]
    dsimp only
    rcases n.negative
    · simp only [Bool.false_eq_true, if_false, Option.some.injEq, Number.integer.injEq,
        false_imp_iff, and_true]
      omega
    · simp only [if_true, true_imp_iff]
      split
      · simp only [Option.some.injEq, Number.integer.injEq]
        omega
      · simp only [Option.some.injEq, reduceCtorEq, false_iff]
        omega
  · have hnone : ∀ m, absorb significandBound 0 n.whole ≠ (m, []) := by
      intro m hm
      obtain ⟨hvalue, hlt⟩ := (Decimal.absorb_eq_iff (by decide) n.whole).1 hm
      exact hwhole (lt_of_eq_of_lt hvalue hlt)
    split
    · next m hm => exact absurd hm (hnone m)
    · simp only [reduceCtorEq, false_iff]
      split <;> omega

theorem fractionOf_ne_integer {negative : Bool} {m : Nat} {e : Int} :
    fractionOf negative m e ≠ .ok (.integer i) := by
  unfold fractionOf
  rcases Decimal.scaled m e with _ | x
  · simp
  · simp

theorem toNumber_eq_integer_iff :
    n.toNumber = .ok (.integer i) ↔
      n.fraction = [] ∧ n.exponent = none ∧ n.integer? = some (.integer i) := by
  constructor
  · intro h
    unfold toNumber at h
    dsimp only at h
    split at h
    · split at h
      · exact absurd h fractionOf_ne_integer
      · split at h <;> simp at h
    · next hexponent =>
      split at h
      · next hfraction =>
        split at h
        · next hx => exact ⟨hfraction, hexponent, hx.trans (congrArg some (Except.ok.inj h))⟩
        · exact absurd h fractionOf_ne_integer
      · exact absurd h fractionOf_ne_integer
  · rintro ⟨hfraction, hexponent, hi⟩
    unfold toNumber
    dsimp only
    rw [hexponent]
    dsimp only
    rw [if_pos hfraction, hi]

end Numeral

theorem signedWhole_ofInt (n : Int) : (Numeral.ofInt n).signedWhole = n := by
  rcases n with n | n
  · exact congrArg Int.ofNat (Decimal.value_digits n)
  · exact congrArg (fun m : Nat => -(m : Int)) (Decimal.value_digits (n + 1))

theorem toNumber_ofInt {n : Int} (hn : -2 ^ 63 ≤ n ∧ n < 2 ^ 64) :
    (Numeral.ofInt n).toNumber = .ok (.integer n) := by
  have hplain : (Numeral.ofInt n).fraction = [] ∧ (Numeral.ofInt n).exponent = none := by
    rcases n with n | n <;> exact ⟨rfl, rfl⟩
  have hminus : (Numeral.ofInt n).negative = true → n ≠ 0 := by
    rcases n with n | n
    · exact nofun
    · exact fun _ => Int.negSucc_ne_zero n
  refine Numeral.toNumber_eq_integer_iff.2 ⟨hplain.1, hplain.2, ?_⟩
  exact Numeral.integer?_eq_integer_iff.2 ⟨(signedWhole_ofInt n).symm, hn.1, hn.2, hminus⟩

theorem readNumber_append {w r : List Char} {n : Numeral} {x : Number} (hw : Numeral.Writes w n)
    (hx : n.toNumber = .ok x) (hr : Numeral.EndsNumber r) :
    ∃ h, readNumber (w ++ r) = .ok (x, ⟨r, h⟩) := by
  obtain ⟨h, hread⟩ := Numeral.read_append .endInValue hw hr
  refine ⟨h, ?_⟩
  unfold readNumber
  rw [hread]
  dsimp only
  rw [hx]

end JsonEdit.Json
