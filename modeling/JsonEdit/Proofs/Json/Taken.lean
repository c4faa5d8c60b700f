import JsonEdit.Proofs.Json.Number
import JsonEdit.Proofs.Json.Quoted
import JsonEdit.Proofs.Json.Steps
import JsonEdit.Proofs.Json.StringChar

/-!
# What the reader takes off a text

* All that is taken off between two values is taken off whatever follows: a quoted string
  (`takes_of_readQuoted`), a key with its colon (`takes_of_readKey`), blanks and the character
  behind them (`exists_blank_of_next?`).
* `WritesScalar`, `WritesOpening`: how a value without containers is written, and how any value
  begins. So is the beginning taken off (`exists_writesOpening_of_readOpening`), and it is read
  before anything else, but a number has to be followed by something that does not go on with it
  (`WritesOpening.reads`). What follows a complete value never does (`endsNumber_of_goOn`).
-/

namespace JsonEdit.Json

variable {s r t : List Char}

/-! ## Taking off -/

theorem exists_unit?_of_readLowSurrogate {n : Nat} {h : r.length < s.length}
    (hs : readLowSurrogate s = .ok (n, ⟨r, h⟩)) :
    ∃ a b c d, s = '\\' :: 'u' :: a :: b :: c :: d :: r ∧ unit? a b c d = some n ∧
      isLowSurrogate n = true := by
  unfold readLowSurrogate at hs
  split at hs
  · simp at hs
  next c r₁ =>
  split at hs
  swap
  · simp at hs
  next hc =>
  subst hc
  split at hs
  · simp at hs
  next e r₂ =>
  split at hs
  swap
  · simp at hs
  next he =>
  subst he
  split at hs
  · simp at hs
  next m r₃ h₃ hm =>
  split at hs
  swap
  · simp at hs
  next hlow =>
  obtain ⟨rfl, rfl⟩ : m = n ∧ r₃ = r := by simpa using hs
  obtain ⟨a, b, c, d, rfl, hunit⟩ := exists_unit?_of_readUnit hm
  exact ⟨a, b, c, d, rfl, hunit, hlow⟩

theorem takes_readLowSurrogate {a b c d : Char} {n : Nat} (hunit : unit? a b c d = some n)
    (hlow : isLowSurrogate n = true) : Takes readLowSurrogate ['\\', 'u', a, b, c, d] n := by
  refine fun t => ⟨?_, by simp [readLowSurrogate, readUnit, hunit, hlow]⟩
  simp only [List.length_append, List.length_cons]
  omega

theorem takes_of_readLowSurrogate {n : Nat} {h : r.length < s.length}
    (hs : readLowSurrogate s = .ok (n, ⟨r, h⟩)) : ∃ w, s = w ++ r ∧ Takes readLowSurrogate w n := by
  obtain ⟨a, b, c, d, rfl, hunit, hlow⟩ := exists_unit?_of_readLowSurrogate hs
  exact ⟨['\\', 'u', a, b, c, d], rfl, takes_readLowSurrogate hunit hlow⟩

theorem ReadsChar.exists_append {c : Char} (hc : ReadsChar s c r) :
    ∃ w, s = w ++ r ∧ ∀ t, ReadsChar (w ++ t) c t := by
  cases hc with
  | char hp =>
    obtain ⟨w, rfl, hw⟩ := takes_of_piece hp
    refine ⟨w, rfl, fun t => ?_⟩
    obtain ⟨h, e⟩ := hw t
    exact .char e
  | unit hp hlow hhigh =>
    obtain ⟨w, rfl, hw⟩ := takes_of_piece hp
    refine ⟨w, rfl, fun t => ?_⟩
    obtain ⟨h, e⟩ := hw t
    exact .unit e hlow hhigh
  | pair hp hlow hhigh hl =>
    obtain ⟨w, rfl, hw⟩ := takes_of_piece hp
    obtain ⟨w', rfl, hw'⟩ := takes_of_readLowSurrogate hl
    refine ⟨w ++ w', (List.append_assoc ..).symm, fun t => ?_⟩
    rw [List.append_assoc]
    obtain ⟨h, e⟩ := hw (w' ++ t)
    obtain ⟨h', e'⟩ := hw' t
    exact .pair e hlow hhigh e'

/-- What is read of a quoted string does not hang on what follows its closing quote. -/
theorem exists_readQuotedOnto_append {n : Nat} {acc s r : List Char} {text : String}
    {bound : s.length ≤ n} {h : r.length < n}
    (hs : readQuotedOnto acc s bound = .ok (text, ⟨r, h⟩)) :
    ∃ w, s = w ++ r ∧ ∀ t m (bound' : (w ++ t).length ≤ m),
      ∃ h', readQuotedOnto acc (w ++ t) bound' = .ok (text, ⟨t, h'⟩) := by
  rcases readQuotedOnto_cases hs with ⟨h₁, hp, rfl⟩ | ⟨c, r₁, h₁, hc, hrest⟩
  · obtain ⟨w, rfl, hw⟩ := takes_of_piece hp
    refine ⟨w, rfl, fun t m bound' => ?_⟩
    obtain ⟨h₂, e₂⟩ := hw t
    refine ⟨by omega, ?_⟩
    rw [readQuotedOnto, e₂]
  · have hlt := hc.length_lt
    obtain ⟨w', rfl, hw'⟩ := exists_readQuotedOnto_append hrest
    obtain ⟨w, rfl, hw⟩ := hc.exists_append
    refine ⟨w ++ w', (List.append_assoc ..).symm, fun t m => ?_⟩
    rw [List.append_assoc]
    intro bound'
    obtain ⟨h₂, e₂⟩ := (hw (w' ++ t)).readQuotedOnto_eq acc bound'
    obtain ⟨h₃, e₃⟩ := hw' t m h₂
    exact ⟨h₃, e₂.trans e₃⟩
termination_by s.length

theorem takes_of_readQuoted {text : String} {h : r.length < s.length}
    (hs : readQuoted s = .ok (text, ⟨r, h⟩)) : ∃ w, s = w ++ r ∧ Takes readQuoted w text := by
  obtain ⟨w, hw, hrest⟩ := exists_readQuotedOnto_append hs
  exact ⟨w, hw, fun t => hrest t _ (Nat.le_refl _)⟩

theorem exists_blank_of_next? {c : Char} {h : r.length < s.length}
    (hs : next? s = some (c, ⟨r, h⟩)) :
    ∃ bs, s = bs ++ c :: r ∧ AllBlank bs ∧ isBlank c = false := by
  unfold next? at hs
  split at hs
  · simp at hs
  next d r' hd =>
  obtain ⟨rfl, rfl⟩ : d = c ∧ r' = r := by simpa using hs
  refine ⟨s.takeWhile isBlank, ?_, fun b hb => List.all_eq_true.1 List.all_takeWhile b hb, ?_⟩
  · rw [← hd]
    exact List.takeWhile_append_dropWhile.symm
  · have hhead := List.head?_dropWhile_not isBlank s
    rw [hd] at hhead
    simpa using hhead

theorem exists_blank_of_readColon {h : r.length < s.length} (hs : readColon s = .ok ⟨r, h⟩) :
    ∃ bs, s = bs ++ ':' :: r ∧ AllBlank bs := by
  unfold readColon at hs
  split at hs
  · simp at hs
  next c r₁ h₁ hnext =>
  split at hs
  swap
  · simp at hs
  next hc =>
  subst hc
  obtain rfl : r₁ = r := by simpa using hs
  obtain ⟨bs, rfl, hb, -⟩ := exists_blank_of_next? hnext
  exact ⟨bs, rfl, hb⟩

theorem exists_quoted_of_readKey {key : String} {h : r.length < s.length}
    (hs : readKey s = .ok (key, ⟨r, h⟩)) :
    ∃ q bs, s = q ++ (bs ++ ':' :: r) ∧ Takes readQuoted q key ∧ AllBlank bs := by
  unfold readKey at hs
  split at hs
  · simp at hs
  next k r₁ h₁ hq =>
  split at hs
  · simp at hs
  next r₂ h₂ hcolon =>
  obtain ⟨rfl, rfl⟩ : k = key ∧ r₂ = r := by simpa using hs
  obtain ⟨q, rfl, htakes⟩ := takes_of_readQuoted hq
  obtain ⟨bs, rfl, hb⟩ := exists_blank_of_readColon hcolon
  exact ⟨q, bs, rfl, htakes, hb⟩

theorem Takes.readKey {key : String} {q bs : List Char} (hq : Takes readQuoted q key)
    (hb : AllBlank bs) : Takes readKey (q ++ (bs ++ [':'])) key := by
  intro t
  obtain ⟨h₁, e₁⟩ := hq (bs ++ ':' :: t)
  obtain ⟨h₂, e₂⟩ := next?_append (c := ':') hb rfl t
  obtain ⟨h₃, e₃⟩ := readKey_of e₁ e₂
  have htext : q ++ (bs ++ [':']) ++ t = q ++ (bs ++ ':' :: t) := by simp
  rw [htext]
  exact ⟨h₃, e₃⟩

theorem takes_of_readKey {key : String} {h : r.length < s.length}
    (hs : readKey s = .ok (key, ⟨r, h⟩)) : ∃ w, s = w ++ r ∧ Takes readKey w key := by
  obtain ⟨q, bs, rfl, hq, hb⟩ := exists_quoted_of_readKey hs
  exact ⟨q ++ (bs ++ [':']), by simp, hq.readKey hb⟩

theorem eq_append_of_readWord {word : List Char} {h : r.length ≤ s.length}
    (hs : readWord word s = .ok ⟨r, h⟩) : s = word ++ r := by
  induction word generalizing s r with
  | nil =>
    obtain rfl : s = r := by simpa [readWord] using hs
    rfl
  | cons w word ih =>
    cases s with
    | nil => simp [readWord] at hs
    | cons c s =>
      rw [readWord] at hs
      split at hs
      swap
      · simp at hs
      next hc =>
      split at hs
      · simp at hs
      next r' h' hr =>
      obtain rfl : r' = r := by simpa using hs
      rw [ih hr, hc]
      rfl

/-! ## The beginning of a value -/

/-- The text `w` writes the value `v`, which is no container. -/
inductive WritesScalar : List Char → Value → Prop where
  | word {c : Char} {letters : List Char} {v : Value} (hc : word? c = some (letters, v)) :
    WritesScalar (c :: letters) v
  | number {w : List Char} {n : Numeral} {x : Number} (hw : n.Writes w) (hx : n.toNumber = .ok x) :
    WritesScalar w (.number x)
  | string {q : List Char} {text : String} (hq : Takes readQuoted q text) :
    WritesScalar ('"' :: q) (.string text)

/-- The text `w` is how a value begins that the reader then takes for `o`. -/
inductive WritesOpening : Opening Value → List Char → Prop where
  | scalar {w : List Char} {v : Value} (hw : WritesScalar w v) : WritesOpening (.scalar v) w
  | list : WritesOpening .list ['[']
  | object : WritesOpening .object ['\x7b']

theorem exists_writesOpening_of_readOpening {o : Opening Value} {h : r.length < s.length}
    (hs : readOpening s = .ok (o, ⟨r, h⟩)) :
    ∃ bs w, s = bs ++ (w ++ r) ∧ AllBlank bs ∧ WritesOpening o w := by
  revert hs
  fun_cases readOpening s with
  | case3 r₁ hr₁ text r₂ hr₂ hq hnext =>
    intro hs
    obtain ⟨rfl, rfl⟩ : .scalar (.string text) = o ∧ r₂ = r := by simpa using hs
    obtain ⟨bs, rfl, hb, -⟩ := exists_blank_of_next? hnext
    obtain ⟨q, rfl, htakes⟩ := takes_of_readQuoted hq
    exact ⟨bs, '"' :: q, rfl, hb, .scalar (.string htakes)⟩
  | case4 r₁ hr₁ hnext =>
    intro hs
    obtain ⟨rfl, rfl⟩ : .list = o ∧ r₁ = r := by simpa using hs
    obtain ⟨bs, rfl, hb, -⟩ := exists_blank_of_next? hnext
    exact ⟨bs, ['['], rfl, hb, .list⟩
  | case5 r₁ hr₁ hnext =>
    intro hs
    obtain ⟨rfl, rfl⟩ : .object = o ∧ r₁ = r := by simpa using hs
    obtain ⟨bs, rfl, hb, -⟩ := exists_blank_of_next? hnext
    exact ⟨bs, ['\x7b'], rfl, hb, .object⟩
  | case7 c r₁ hr₁ hnext hquote hlist hobject letters v hword r₂ hr₂ hr =>
    intro hs
    obtain ⟨rfl, rfl⟩ : .scalar v = o ∧ r₂ = r := by simpa using hs
    obtain ⟨bs, rfl, hb, -⟩ := exists_blank_of_next? hnext
    obtain rfl := eq_append_of_readWord hr
    exact ⟨bs, c :: letters, rfl, hb, .scalar (.word hword)⟩
  | case9 c r₁ hr₁ hnext hquote hlist hobject hword hc x r₂ hr₂ hx =>
    intro hs
    obtain ⟨rfl, rfl⟩ : .scalar (.number x) = o ∧ r₂ = r := by simpa using hs
    obtain ⟨bs, rfl, hb, -⟩ := exists_blank_of_next? hnext
    obtain ⟨w, n, hw, hwrites, hn⟩ := numeral_of_readNumber hx
    exact ⟨bs, w, by rw [hw], hb, .scalar (.number hwrites hn)⟩
  | _ => simp

theorem WritesOpening.reads {o : Opening Value} {bs w : List Char} (hw : WritesOpening o w)
    (hb : AllBlank bs) (ht : ∀ v, o = .scalar v → Numeral.EndsNumber t) :
    ∃ h, readOpening (bs ++ (w ++ t)) = .ok (o, ⟨t, h⟩) := by
  cases hw with
  | scalar hw =>
    cases hw with
    | @word c letters v hc =>
      obtain ⟨h₁, e₁⟩ := next?_append hb (not_blank_of_word? hc).1 (letters ++ t)
      exact readOpening_word e₁ hc
    | number hw hx =>
      obtain ⟨c, w', rfl, hc⟩ := hw.head?
      obtain ⟨h₁, e₁⟩ := next?_append hb (not_blank_of_startsNumber hc).1 (w' ++ t)
      obtain ⟨h₂, e₂⟩ : ∃ h, readNumber (c :: (w' ++ t)) = .ok (_, ⟨t, h⟩) :=
        readNumber_append hw hx (ht _ rfl)
      exact ⟨_, readOpening_number e₁ hc e₂⟩
    | @string q text hq =>
      obtain ⟨h₁, e₁⟩ := next?_append (c := '"') hb rfl (q ++ t)
      obtain ⟨h₂, e₂⟩ := hq t
      exact ⟨_, readOpening_string e₁ e₂⟩
  | list =>
    obtain ⟨h, e⟩ := next?_append (c := '[') hb rfl t
    exact ⟨h, readOpening_bracket e⟩
  | object =>
    obtain ⟨h, e⟩ := next?_append (c := '\x7b') hb rfl t
    exact ⟨h, readOpening_brace e⟩

theorem exists_readOpening_append {o : Opening Value} {h : r.length < s.length}
    (hs : readOpening s = .ok (o, ⟨r, h⟩)) :
    ∃ w, s = w ++ r ∧ ∀ t, (∀ v, o = .scalar v → Numeral.EndsNumber t) →
      ∃ h, readOpening (w ++ t) = .ok (o, ⟨t, h⟩) := by
  obtain ⟨bs, w, rfl, hb, hw⟩ := exists_writesOpening_of_readOpening hs
  refine ⟨bs ++ w, (List.append_assoc ..).symm, fun t ht => ?_⟩
  rw [List.append_assoc]
  exact hw.reads hb ht

theorem exists_brace_of_readOpening {h : r.length < s.length}
    (hs : readOpening s = .ok (.object, ⟨r, h⟩)) : ∃ bs, s = bs ++ '\x7b' :: r ∧ AllBlank bs := by
  obtain ⟨bs, w, rfl, hb, hw⟩ := exists_writesOpening_of_readOpening hs
  cases hw
  exact ⟨bs, rfl, hb⟩

/-! ## More text behind or in front -/

theorem next?_append_right {c : Char} {h : r.length < s.length}
    (hs : next? s = some (c, ⟨r, h⟩)) (t : List Char) :
    ∃ h, next? (s ++ t) = some (c, ⟨r ++ t, h⟩) := by
  obtain ⟨bs, rfl, hb, hc⟩ := exists_blank_of_next? hs
  rw [List.append_assoc, List.cons_append]
  exact next?_append hb hc (r ++ t)

theorem next?_blank_append {bs : List Char} {c : Char} {h : r.length < s.length}
    (hb : AllBlank bs) (hs : next? s = some (c, ⟨r, h⟩)) :
    ∃ h, next? (bs ++ s) = some (c, ⟨r, h⟩) := by
  obtain ⟨cs, rfl, hcs, hc⟩ := exists_blank_of_next? hs
  rw [← List.append_assoc]
  exact next?_append (List.forall_mem_append.2 ⟨hb, hcs⟩) hc r

theorem readKey_append {key : String} {h : r.length < s.length}
    (hs : readKey s = .ok (key, ⟨r, h⟩)) (t : List Char) :
    ∃ h, readKey (s ++ t) = .ok (key, ⟨r ++ t, h⟩) := by
  obtain ⟨w, rfl, hw⟩ := takes_of_readKey hs
  rw [List.append_assoc]
  exact hw (r ++ t)

/-! ## The ends of numbers -/

theorem endsNumber_blank_cons {b : Char} (hb : isBlank b = true) (r : List Char) :
    Numeral.EndsNumber (b :: r) := by
  intro d hd
  obtain rfl : b = d := Option.some.inj hd
  simp only [isBlank, Bool.or_eq_true, decide_eq_true_eq] at hb
  rcases hb with ((rfl | rfl) | rfl) | rfl <;> decide

theorem endsNumber_cons {c : Char} (hc : c = ',' ∨ c = ']' ∨ c = '\x7d') (r : List Char) :
    Numeral.EndsNumber (c :: r) := by
  intro d hd
  obtain rfl : c = d := Option.some.inj hd
  rcases hc with rfl | rfl | rfl <;> decide

theorem endsNumber_blank_append {bs : List Char} (hb : AllBlank bs) (hr : Numeral.EndsNumber r) :
    Numeral.EndsNumber (bs ++ r) := by
  rcases bs with _ | ⟨b, bs⟩
  · exact hr
  · exact endsNumber_blank_cons (hb b List.mem_cons_self) _

theorem endsNumber_blank {bs : List Char} (hb : AllBlank bs) {c : Char}
    (hc : c = ',' ∨ c = ']' ∨ c = '\x7d') (r : List Char) : Numeral.EndsNumber (bs ++ c :: r) :=
  endsNumber_blank_append hb (endsNumber_cons hc r)

theorem endsNumber_nil : Numeral.EndsNumber [] := by
  simp [Numeral.EndsNumber]

theorem endsNumber_of_allBlank (hs : AllBlank s) : Numeral.EndsNumber s := by
  rw [← List.append_nil s]
  exact endsNumber_blank_append hs endsNumber_nil

theorem endsNumber_of_append (h : Numeral.EndsNumber (s ++ t)) : Numeral.EndsNumber s := by
  cases s with
  | nil => exact endsNumber_nil
  | cons c s => exact h

theorem endsNumber_of_next? {c : Char} {h : r.length < s.length}
    (hs : next? s = some (c, ⟨r, h⟩)) (hc : c = ',' ∨ c = ']' ∨ c = '\x7d') :
    Numeral.EndsNumber s := by
  obtain ⟨bs, rfl, hb, -⟩ := exists_blank_of_next? hs
  exact endsNumber_blank hb hc r

theorem endsNumber_of_goOn {stack : List Frame} {v w : Value} (h : goOn stack v s = .ok w) :
    Numeral.EndsNumber s := by
  revert h
  fun_cases goOn stack v s with
  | case1 hs => exact fun _ => endsNumber_of_allBlank (next?_eq_none_iff.1 hs)
  | case4 done stack r hr hs => exact fun _ => endsNumber_of_next? hs (.inr (.inl rfl))
  | case7 done stack r hr c r' hr' hnext hc hs => exact fun _ => endsNumber_of_next? hs (.inl rfl)
  | case10 done key stack r hr hs => exact fun _ => endsNumber_of_next? hs (.inr (.inr rfl))
  | case13 done key stack r hr r' hr' key' r'' hr'' hkey hs hc hnext =>
    exact fun _ => endsNumber_of_next? hs (.inl rfl)
  | _ => simp

end JsonEdit.Json
