/-!
# Decimal digits

* `digits n` writes a natural number, `value ds` reads one; `value_digits` and `digits_value` say
  that they agree.
* `absorb limit m ds` reads digits into `m` for as long as the result stays below `limit`, and
  gives back the digits that did not fit; `absorb_eq_iff` says when there are none.
-/

namespace JsonEdit.Decimal

/-- The character of a digit below ten. -/
def digitChar (d : Nat) : Char :=
  Char.ofNat ('0'.toNat + d)

/-- What a decimal digit is worth. -/
def digitValue (c : Char) : Nat :=
  c.toNat - '0'.toNat

def digits (n : Nat) : List Char :=
  if n < 10 then [digitChar n] else digits (n / 10) ++ [digitChar (n % 10)]
termination_by n
decreasing_by omega

/-- A natural number as text. -/
def numeral (n : Nat) : String :=
  String.ofList (digits n)

def value (ds : List Char) : Nat :=
  ds.foldl (fun n d => 10 * n + digitValue d) 0

/-- The digits of a number with its sign in front, a minus or nothing. -/
def signed : Int → List Char
  | .ofNat n => digits n
  | .negSucc n => '-' :: digits (n + 1)

/-- Reads digits into `m` while the result is below `limit`; what did not fit is given back. -/
def absorb (limit : Nat) (m : Nat) : List Char → Nat × List Char
  | [] => (m, [])
  | d :: ds =>
    if 10 * m + digitValue d < limit then absorb limit (10 * m + digitValue d) ds else (m, d :: ds)

/-- The digits at the front of a text, and what follows them. -/
def run (s : List Char) : List Char × List Char :=
  (s.takeWhile Char.isDigit, s.dropWhile Char.isDigit)

/-! ## Digits of one place -/

theorem digitValue_digitChar {d : Nat} (h : d < 10) : digitValue (digitChar d) = d := by
  have all : ∀ d, d < 10 → digitValue (digitChar d) = d := by decide
  exact all d h

theorem isDigit_digitChar {d : Nat} (h : d < 10) : (digitChar d).isDigit = true := by
  have all : ∀ d, d < 10 → (digitChar d).isDigit = true := by decide
  exact all d h

theorem digitValue_lt {c : Char} (h : c.isDigit = true) : digitValue c < 10 := by
  simp only [Char.isDigit, Bool.and_eq_true, decide_eq_true_eq] at h
  have h0 : '0'.toNat = 48 := rfl
  have h1 : c.toNat ≤ 57 := h.2
  unfold digitValue
  omega

theorem digitChar_digitValue {c : Char} (h : c.isDigit = true) : digitChar (digitValue c) = c := by
  simp only [Char.isDigit, Bool.and_eq_true, decide_eq_true_eq] at h
  have h0 : '0'.toNat = 48 := rfl
  have h1 : 48 ≤ c.toNat := h.1
  have h2 : '0'.toNat + digitValue c = c.toNat := by
    unfold digitValue
    omega
  rw [digitChar, h2, Char.ofNat_toNat]

/-! ## Writing and reading -/

theorem value_append_singleton (ds : List Char) (d : Char) :
    value (ds ++ [d]) = 10 * value ds + digitValue d := by
  simp [value]

theorem value_digits (n : Nat) : value (digits n) = n := by
  rw [digits]
  split
  · next h => simp [value, digitValue_digitChar h]
  · rw [value_append_singleton, value_digits, digitValue_digitChar (Nat.mod_lt _ (by decide))]
    omega
termination_by n
decreasing_by omega

theorem isDigit_of_mem_digits {n : Nat} {c : Char} (h : c ∈ digits n) : c.isDigit = true := by
  rw [digits] at h
  split at h
  · next hn => rw [List.mem_singleton.1 h]; exact isDigit_digitChar hn
  · rcases List.mem_append.1 h with h | h
    · exact isDigit_of_mem_digits h
    · rw [List.mem_singleton.1 h]; exact isDigit_digitChar (Nat.mod_lt _ (by decide))
termination_by n
decreasing_by omega

theorem digits_ne_nil (n : Nat) : digits n ≠ [] := by
  rw [digits]; split <;> simp

/-- Only zero is written with a leading zero. -/
theorem head_digits_ne_zero {n : Nat} (h : 0 < n) : (digits n).head? ≠ some '0' := by
  rw [digits]
  split
  · next hn =>
    have all : ∀ d, d < 10 → 0 < d → [digitChar d].head? ≠ some '0' := by decide
    exact all n hn h
  · rw [List.head?_append]
    have ih := head_digits_ne_zero (n := n / 10) (by omega)
    cases hd : (digits (n / 10)).head? with
    | none => exact absurd (List.head?_eq_none_iff.1 hd) (digits_ne_nil _)
    | some c => rw [hd] at ih; simpa using ih
termination_by n
decreasing_by omega

/-- Digits without a superfluous zero are what their value is written with. -/
theorem digits_value {ds : List Char} (hne : ds ≠ []) (hds : ∀ d ∈ ds, d.isDigit = true)
    (h0 : ∀ d r, ds ≠ '0' :: d :: r) : digits (value ds) = ds := by
  obtain ⟨es, d, rfl⟩ : ∃ es d, ds = es ++ [d] := ⟨_, _, (List.dropLast_concat_getLast hne).symm⟩
  have hd : d.isDigit = true := hds d (by simp)
  have hlt := digitValue_lt hd
  rw [value_append_singleton, digits]
  by_cases hes : es = []
  · subst hes
    have hvalue : 10 * value [] + digitValue d = digitValue d := Nat.zero_add _
    rw [hvalue, if_pos hlt, digitChar_digitValue hd, List.nil_append]
  · have hlead : ∀ c r, es ≠ '0' :: c :: r := by
      rintro c r rfl
      exact h0 c (r ++ [d]) rfl
    have ih : digits (value es) = es :=
      digits_value hes (fun c hc => hds c (List.mem_append_left _ hc)) hlead
    have hpos : 0 < value es := by
      refine Nat.pos_of_ne_zero fun hzero => h0 d [] ?_
      have hes : es = ['0'] := by
        rw [← ih, hzero, digits]
        rfl
      rw [hes, List.singleton_append]
    have hdiv : (10 * value es + digitValue d) / 10 = value es := by omega
    have hmod : (10 * value es + digitValue d) % 10 = digitValue d := by omega
    rw [if_neg (by omega), hdiv, hmod, ih, digitChar_digitValue hd]
termination_by ds.length
decreasing_by simp_all

/-! ## Bounded reading -/

/-- Reading digits into `m`, without a bound. -/
def valueOnto (m : Nat) (ds : List Char) : Nat :=
  ds.foldl (fun n d => 10 * n + digitValue d) m

theorem le_valueOnto (m : Nat) (ds : List Char) : m ≤ valueOnto m ds := by
  induction ds generalizing m with
  | nil => exact Nat.le_refl m
  | cons d ds ih =>
    have := ih (10 * m + digitValue d)
    show m ≤ valueOnto (10 * m + digitValue d) ds
    omega

theorem absorb_fst_lt {limit m : Nat} (hm : m < limit) (ds : List Char) :
    (absorb limit m ds).1 < limit := by
  induction ds generalizing m with
  | nil => exact hm
  | cons d ds ih =>
    rw [absorb]
    split
    · next h => exact ih h
    · exact hm

/-- All digits fit just where their value is below the bound. -/
theorem absorb_eq_iff {limit m k : Nat} (hm : m < limit) (ds : List Char) :
    absorb limit m ds = (k, []) ↔ valueOnto m ds = k ∧ k < limit := by
  induction ds generalizing m with
  | nil =>
    rw [absorb, Prod.mk.injEq]
    exact ⟨fun h => ⟨h.1, h.1 ▸ hm⟩, fun h => ⟨h.1, rfl⟩⟩
  | cons d ds ih =>
    rw [absorb]
    have hnext : valueOnto m (d :: ds) = valueOnto (10 * m + digitValue d) ds := rfl
    split
    · next h => rw [ih h, hnext]
    · next h =>
      have := le_valueOnto (10 * m + digitValue d) ds
      rw [hnext, Prod.mk.injEq]
      constructor
      · rintro ⟨-, h'⟩
        cases h'
      · rintro ⟨h', hk⟩
        omega

/-! ## Runs -/

theorem run_append (ds s : List Char) (hd : ∀ c ∈ ds, c.isDigit = true)
    (hs : ∀ c ∈ s.head?, c.isDigit = false) : run (ds ++ s) = (ds, s) := by
  induction ds with
  | nil =>
    cases s with
    | nil => rfl
    | cons c s => simp [run, hs c (by simp)]
  | cons d ds ih =>
    have h := ih fun c hc => hd c (by simp [hc])
    have hd' := hd d (by simp)
    simp only [run, Prod.mk.injEq] at h
    simp [run, hd', h.1, h.2]

theorem length_run_snd (s : List Char) : (run s).2.length ≤ s.length :=
  (List.dropWhile_sublist _).length_le

end JsonEdit.Decimal
