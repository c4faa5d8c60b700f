import JsonEdit.Edit.Document
import JsonEdit.Proofs.Json.Steps
import JsonEdit.Proofs.Outcome

/-!
# The reader and the checker agree

The checker goes through a text beside the reader. Where the reader goes on, the checker goes on
from the same place; where the reader stops, the checker stops as well, unless the reader stopped at
a limit that only the reader has. `Follows` is this relation between two outcomes. It is proved for
strings, numbers and keys first, and for whole texts by induction on what is left
(`follows_readValue`, `follows_goOn`).
-/

namespace JsonEdit

namespace Json

/-- Causes that only the reader knows: the checker does not count open containers, asks for the size
of no number and pairs no surrogates. -/
def Cause.limits : List Cause :=
  [.tooDeep, .outOfRange, .loneSurrogate, .cutSurrogate]

theorem Cause.message_of_mem_limits {c : Cause} (hc : c ∈ limits) :
    c.message = "recursion limit exceeded" ∨ c.message = "number out of range" ∨
      c.message = "lone leading surrogate in hex escape" ∨
      c.message = "unexpected end of hex escape" := by
  simp only [limits, List.mem_cons, List.not_mem_nil, or_false] at hc
  rcases hc with rfl | rfl | rfl | rfl
  · exact .inl rfl
  · exact .inr (.inl rfl)
  · exact .inr (.inr (.inl rfl))
  · exact .inr (.inr (.inr rfl))

/-- What the checker may do where the reader does what is on the left. -/
inductive Follows {α β : Type} (R : α → β → Prop) : Except Fault α → Except Fault β → Prop where
  | ok {a : α} {b : β} (h : R a b) : Follows R (.ok a) (.ok b)
  | fault (f g : Fault) : Follows R (.error f) (.error g)
  | limit {c : Cause} (hc : c ∈ Cause.limits) (unread : Nat) (y : Except Fault β) :
    Follows R (.error ⟨c, unread⟩) y

namespace Follows

variable {α β : Type} {R : α → β → Prop}

theorem of_eq {x y : Except Fault α} (h : x = y) : Follows Eq x y := by
  subst h
  rcases x with f | a
  · exact .fault f f
  · exact .ok rfl

theorem exists_ok {a : α} {y : Except Fault β} (h : Follows R (.ok a) y) : ∃ b, y = .ok b := by
  cases h
  exact ⟨_, rfl⟩

theorem isLimit_of_ok {f : Fault} {b : β} (h : Follows R (.error f) (.ok b)) :
    f.cause ∈ Cause.limits := by
  cases h
  assumption

end Follows

/-! ## Quoted strings -/

/-- The second unit of a pair is one unit to the checker. -/
theorem follows_readLowSurrogate (s : List Char) :
    Follows (fun a b => (.unit a.1, a.2) = b) (readLowSurrogate s) (piece s) := by
  rcases s with _ | ⟨c, r⟩
  · exact .fault _ _
  by_cases hc : c = '\\'
  · subst hc
    rcases r with _ | ⟨e, r⟩
    · exact .fault _ _
    · by_cases he : e = 'u'
      · subst he
        simp only [readLowSurrogate, piece, readEscape, if_true]
        rcases readUnit r with f | ⟨n, r', h⟩
        · exact .fault _ _
        · by_cases hn : isLowSurrogate n
          · simp only [hn, if_true]
            exact .ok rfl
          · simp only [hn]
            exact .limit (by decide) _ _
      · simp only [readLowSurrogate, he, if_true, if_false]
        exact .limit (by decide) _ _
  · simp only [readLowSurrogate, hc, if_false]
    exact .limit (by decide) _ _

theorem follows_readQuotedOnto {n : Nat} (acc s : List Char) (bound : s.length ≤ n) :
    Follows (fun a b => a.2 = b) (readQuotedOnto acc s bound) (skipQuotedWithin s bound) := by
  rw [readQuotedOnto, skipQuotedWithin]
  rcases hpiece : piece s with f | ⟨_ | c | u | _, r, hr⟩
  · exact .fault _ _
  · exact .ok rfl
  · exact follows_readQuotedOnto (c :: acc) r (by omega)
  · by_cases hlow : isLowSurrogate u
    · simp only [hlow, if_true]
      exact .limit (by decide) _ _
    · by_cases hhigh : isHighSurrogate u
      · simp only [hlow, hhigh, if_true]
        -- the checker passes over the second unit in a step of its own
        rw [skipQuotedWithin]
        have hsecond := follows_readLowSurrogate r
        generalize readLowSurrogate r = x, piece r = y at hsecond ⊢
        rcases hsecond with @⟨⟨l, r', hr'⟩, _, rfl⟩ | _ | hc
        · exact follows_readQuotedOnto _ r' (by omega)
        · exact .fault _ _
        · exact .limit hc _ _
      · simp only [hlow, hhigh]
        exact follows_readQuotedOnto _ r (by omega)
  · exact .fault _ _
termination_by s.length

theorem follows_readQuoted (s : List Char) :
    Follows (fun a b => a.2 = b) (readQuoted s) (skipQuoted s) :=
  follows_readQuotedOnto [] s (Nat.le_refl _)

/-! ## Numbers

The two only differ in what they report where the text ends inside a number. -/

section

variable (cut cut' : Cause) (s : List Char)

theorem follows_readWhole :
    Follows Eq (Numeral.readWhole cut s) (Numeral.readWhole cut' s) := by
  rcases s with _ | ⟨d, r⟩
  · exact .fault _ _
  · exact .of_eq rfl

theorem follows_readDigits :
    Follows Eq (Numeral.readDigits cut s) (Numeral.readDigits cut' s) := by
  rcases s with _ | ⟨d, r⟩
  · exact .fault _ _
  · exact .of_eq rfl

theorem follows_readFraction :
    Follows Eq (Numeral.readFraction cut s) (Numeral.readFraction cut' s) := by
  rcases s with _ | ⟨c, r⟩
  · exact .of_eq rfl
  · unfold Numeral.readFraction
    dsimp only
    split
    · have hdigits := follows_readDigits cut cut' r
      generalize Numeral.readDigits cut r = x, Numeral.readDigits cut' r = y at hdigits ⊢
      rcases hdigits with ⟨rfl⟩ | _ | hc
      · exact .ok rfl
      · exact .fault _ _
      · exact .limit hc _ _
    · exact .of_eq rfl

theorem follows_readExponent :
    Follows Eq (Numeral.readExponent cut s) (Numeral.readExponent cut' s) := by
  rcases s with _ | ⟨c, r⟩
  · exact .of_eq rfl
  · unfold Numeral.readExponent
    dsimp only
    split
    · obtain ⟨negative, r₁, h₁⟩ := Numeral.readSign r
      have hdigits := follows_readDigits cut cut' r₁
      generalize Numeral.readDigits cut r₁ = x, Numeral.readDigits cut' r₁ = y at hdigits ⊢
      rcases hdigits with ⟨rfl⟩ | _ | hc
      · exact .ok rfl
      · exact .fault _ _
      · exact .limit hc _ _
    · exact .of_eq rfl

theorem follows_readUnsigned (negative : Bool) :
    Follows Eq (Numeral.readUnsigned cut negative s) (Numeral.readUnsigned cut' negative s) := by
  unfold Numeral.readUnsigned
  have hwhole := follows_readWhole cut cut' s
  generalize Numeral.readWhole cut s = x, Numeral.readWhole cut' s = y at hwhole ⊢
  rcases hwhole with @⟨⟨whole, r₁, h₁⟩, _, rfl⟩ | _ | hc
  · have hfraction := follows_readFraction cut cut' r₁
    dsimp only
    generalize Numeral.readFraction cut r₁ = x, Numeral.readFraction cut' r₁ = y at hfraction ⊢
    rcases hfraction with @⟨⟨fraction, r₂, h₂⟩, _, rfl⟩ | _ | hc
    · have hexponent := follows_readExponent cut cut' r₂
      dsimp only
      generalize Numeral.readExponent cut r₂ = x, Numeral.readExponent cut' r₂ = y
        at hexponent ⊢
      rcases hexponent with ⟨rfl⟩ | _ | hc
      · exact .ok rfl
      · exact .fault _ _
      · exact .limit hc _ _
    · exact .fault _ _
    · exact .limit hc _ _
  · exact .fault _ _
  · exact .limit hc _ _

theorem follows_read : Follows Eq (Numeral.read cut s) (Numeral.read cut' s) := by
  rcases s with _ | ⟨c, r⟩
  · exact .fault _ _
  · unfold Numeral.read
    dsimp only
    split
    · have hunsigned := follows_readUnsigned cut cut' r true
      generalize Numeral.readUnsigned cut true r = x, Numeral.readUnsigned cut' true r = y
        at hunsigned ⊢
      rcases hunsigned with ⟨rfl⟩ | _ | hc
      · exact .ok rfl
      · exact .fault _ _
      · exact .limit hc _ _
    · exact follows_readUnsigned cut cut' (c :: r) false

end

theorem follows_readNumber (s : List Char) :
    Follows (fun a b => a.2 = b.2) (readNumber s) (Numeral.read .badNumber s) := by
  unfold readNumber
  have hread := follows_read .endInValue .badNumber s
  generalize Numeral.read .endInValue s = x, Numeral.read .badNumber s = y at hread ⊢
  rcases hread with @⟨⟨n, r, h⟩, _, rfl⟩ | _ | hc
  · dsimp only
    rcases n.toNumber with digits | x
    · exact .limit (by decide) _ _
    · exact .ok rfl
  · exact .fault _ _
  · exact .limit hc _ _

/-! ## The beginning of a value -/

def Opening.forget {α : Type} : Opening α → Opening Unit
  | .scalar _ => .scalar ()
  | .list => .list
  | .object => .object

theorem follows_readOpening (s : List Char) :
    Follows (fun a b => (a.1.forget, a.2) = b) (readOpening s) (checkOpening s) := by
  unfold readOpening checkOpening
  rcases next? s with _ | ⟨c, r, hr⟩
  · exact .fault _ _
  dsimp only
  split
  · have hquoted := follows_readQuoted r
    generalize readQuoted r = x, skipQuoted r = y at hquoted ⊢
    rcases hquoted with ⟨rfl⟩ | _ | hc
    · exact .ok rfl
    · exact .fault _ _
    · exact .limit hc _ _
  split
  · exact .ok rfl
  split
  · exact .ok rfl
  rcases word? c with _ | ⟨letters, v⟩
  · dsimp only
    split
    · have hnumber := follows_readNumber (c :: r)
      generalize readNumber (c :: r) = x, Numeral.read .badNumber (c :: r) = y at hnumber ⊢
      rcases hnumber with @⟨⟨number, r', h'⟩, ⟨n, _⟩, rfl⟩ | _ | hc
      · exact .ok rfl
      · exact .fault _ _
      · exact .limit hc _ _
    · exact .fault _ _
  · dsimp only
    rcases readWord letters r with f | ⟨r', h'⟩
    · exact .fault _ _
    · exact .ok rfl

/-! ## Keys -/

/-- The reader has gone past the opening quote where the checker has not. -/
theorem follows_readKey {s r : List Char} {h : r.length < s.length}
    (hs : next? s = some ('"', ⟨r, h⟩)) :
    Follows (fun a b => a.2.1 = b.1) (readKey r) (checkKey s) := by
  unfold readKey checkKey
  rw [hs]
  dsimp only
  rw [if_pos rfl]
  have hquoted := follows_readQuoted r
  generalize readQuoted r = x, skipQuoted r = y at hquoted ⊢
  rcases hquoted with @⟨⟨key, r', h'⟩, _, rfl⟩ | _ | hc
  · dsimp only
    rcases readColon r' with f | ⟨r'', h''⟩
    · exact .fault _ _
    · exact .ok rfl
  · exact .fault _ _
  · exact .limit hc _ _

theorem exists_checkKey_eq_error {s r : List Char} {c : Char} {h : r.length < s.length}
    (hs : next? s = some (c, ⟨r, h⟩)) (hc : c ≠ '"') : ∃ f, checkKey s = .error f := by
  unfold checkKey
  rw [hs]
  dsimp only
  rw [if_neg hc]
  exact ⟨_, rfl⟩

/-! ## Whole texts -/

def Frame.bracket : Frame → Bracket
  | .items _ => .list
  | .members _ _ => .object

theorem exists_checkValue_eq_error (stack : List Bracket) {s r : List Char}
    {h : r.length < s.length} (hs : next? s = some (']', ⟨r, h⟩)) :
    ∃ f, checkValue stack s = .error f := by
  rw [checkValue, checkOpening, hs]
  exact ⟨_, rfl⟩

mutual

theorem follows_readValue (stack : List Frame) (s : List Char) :
    Follows (fun _ _ => True) (readValue stack s) (checkValue (stack.map Frame.bracket) s) := by
  rw [readValue, checkValue]
  have hopening := follows_readOpening s
  generalize readOpening s = x, checkOpening s = y at hopening ⊢
  rcases hopening with @⟨⟨v | _ | _, r, hr⟩, _, rfl⟩ | _ | hc
  · exact follows_goOn stack v r
  · dsimp only [Opening.forget]
    split
    · rcases next? r with _ | ⟨c, r', hr'⟩
      · exact .fault _ _
      · dsimp only
        split
        · exact follows_goOn stack (.array []) r'
        · exact follows_readValue (.items [] :: stack) r
    · exact .limit (by decide) _ _
  · dsimp only [Opening.forget]
    split
    · rcases hnext : next? r with _ | ⟨c, r', hr'⟩
      · exact .fault _ _
      · dsimp only
        split
        · exact follows_goOn stack (.object []) r'
        split
        · next hc =>
          have hkey := follows_readKey (hc ▸ hnext)
          generalize readKey r' = x, checkKey r = y at hkey ⊢
          rcases hkey with @⟨⟨key, r'', h''⟩, ⟨_, _⟩, rfl⟩ | _ | hc
          · exact follows_readValue (.members [] key :: stack) r''
          · exact .fault _ _
          · exact .limit hc _ _
        · next hc =>
          obtain ⟨f, hf⟩ := exists_checkKey_eq_error hnext hc
          rw [hf]
          exact .fault _ _
    · exact .limit (by decide) _ _
  · exact .fault _ _
  · exact .limit hc _ _
termination_by s.length

theorem follows_goOn (stack : List Frame) (v : Value) (s : List Char) :
    Follows (fun _ _ => True) (goOn stack v s) (checkOn (stack.map Frame.bracket) s) := by
  rcases stack with _ | ⟨done | ⟨done, key⟩, stack⟩
  · rw [goOn, List.map_nil, checkOn]
    rcases next? s with _ | ⟨c, r, hr⟩
    · exact .ok trivial
    · exact .fault _ _
  · rw [goOn, List.map_cons, Frame.bracket, checkOn]
    rcases next? s with _ | ⟨c, r, hr⟩
    · exact .fault _ _
    dsimp only
    split
    · exact follows_goOn stack (.array (v :: done).reverse) r
    split
    · rcases hnext : next? r with _ | ⟨d, r', hr'⟩
      · rw [checkValue, checkOpening, hnext]
        exact .fault _ _
      · dsimp only
        split
        · next hd =>
          -- the reader blames the comma, the checker only misses a value
          have hclose : next? r = some (']', ⟨r', hr'⟩) := hd ▸ hnext
          obtain ⟨f, hf⟩ := exists_checkValue_eq_error (.list :: stack.map Frame.bracket) hclose
          rw [hf]
          exact .fault _ _
        · exact follows_readValue (.items (v :: done) :: stack) r
    · exact .fault _ _
  · rw [goOn, List.map_cons, Frame.bracket, checkOn]
    rcases next? s with _ | ⟨c, r, hr⟩
    · exact .fault _ _
    dsimp only
    split
    · exact follows_goOn stack (.object (Members.put key v done)) r
    split
    · rcases hnext : next? r with _ | ⟨d, r', hr'⟩
      · rw [checkKey, hnext]
        exact .fault _ _
      · dsimp only
        split
        · next hd =>
          have hkey := follows_readKey (hd ▸ hnext)
          generalize readKey r' = x, checkKey r = y at hkey ⊢
          rcases hkey with @⟨⟨next, r'', h''⟩, ⟨_, _⟩, rfl⟩ | _ | hc
          · exact follows_readValue (.members (Members.put key v done) next :: stack) r''
          · exact .fault _ _
          · exact .limit hc _ _
        · next hd =>
          obtain ⟨f, hf⟩ := exists_checkKey_eq_error hnext hd
          rw [hf]
          split
          · exact .fault _ _
          · exact .fault _ _
    · exact .fault _ _
termination_by s.length

end

end Json

/-- A text that is read is accepted, and an accepted text that is not read ran into a limit of the
reader. -/
theorem checkDocument_of_readDocument (text : String) :
    ((∃ v, readDocument text = .ok v) → checkDocument text = .ok ()) ∧
      ∀ e, checkDocument text = .ok () → readDocument text = .error e →
        ∃ m : Json.Malformed, e = .malformed m ∧
          (m.cause.message = "recursion limit exceeded" ∨
            m.cause.message = "number out of range" ∨
            m.cause.message = "lone leading surrogate in hex escape" ∨
            m.cause.message = "unexpected end of hex escape") := by
  have hfollows : Json.Follows _ (Json.readValue [] text.toList) (Json.checkValue [] text.toList) :=
    Json.follows_readValue [] text.toList
  simp only [readDocument, Json.read, checkDocument, Json.check, mapError_eq_ok_iff,
    mapError_eq_error_iff]
  constructor
  · rintro ⟨v, hv⟩
    rw [hv] at hfollows
    exact hfollows.exists_ok.elim fun _ h => h
  · rintro e hcheck ⟨m, ⟨f, hf, rfl⟩, rfl⟩
    rw [hf, hcheck] at hfollows
    exact ⟨_, rfl, Json.Cause.message_of_mem_limits hfollows.isLimit_of_ok⟩

theorem readValue_emptyList_alone : Json.readValue [] ['[', ']'] = .ok (.array []) := by
  obtain ⟨h, hopen⟩ := Json.next?_cons (c := '[') rfl [']']
  obtain ⟨h', hclose⟩ := Json.next?_cons (c := ']') rfl []
  rw [Json.readValue_emptyList hopen (by decide) hclose, Json.goOn_end (List.forall_mem_nil _)]

/-- The first half of a surrogate pair, as a string of its own. -/
def halfPair : List Char :=
  ['"', '\\', 'u', 'd', '8', '0', '0', '"']

theorem readValue_halfPair : Json.readValue [] halfPair = .error ⟨.cutSurrogate, 0⟩ := by
  have hquoted : Json.readQuoted halfPair.tail = .error ⟨.cutSurrogate, 0⟩ := by
    rw [Json.readQuoted, Json.readQuotedOnto]
    rfl
  obtain ⟨h, hnext⟩ : ∃ h, Json.next? halfPair = some ('"', ⟨halfPair.tail, h⟩) :=
    Json.next?_cons (c := '"') rfl halfPair.tail
  rw [Json.readValue, Json.readOpening, hnext]
  dsimp only
  rw [if_pos rfl, hquoted]

theorem checkValue_halfPair : Json.checkValue [] halfPair = .ok () := by
  obtain ⟨h, hquoted⟩ : ∃ h, Json.skipQuoted halfPair.tail = .ok ⟨[], h⟩ := by
    refine ⟨by decide, ?_⟩
    rw [Json.skipQuoted, Json.skipQuotedWithin]
    show Json.skipQuotedWithin (n := 7) ['"'] (by decide) = .ok ⟨[], by decide⟩
    rw [Json.skipQuotedWithin]
    rfl
  obtain ⟨h, hnext⟩ : ∃ h, Json.next? halfPair = some ('"', ⟨halfPair.tail, h⟩) :=
    Json.next?_cons (c := '"') rfl halfPair.tail
  rw [Json.checkValue, Json.checkOpening, hnext]
  dsimp only
  rw [if_pos rfl, hquoted]
  dsimp only
  rw [Json.checkOn]
  rfl

theorem checkDocument_emptyList_and_half_pair :
    checkDocument "[]" = .ok () ∧
      checkDocument "\"\\ud800\"" = .ok () ∧
      ∃ m : Json.Malformed, readDocument "\"\\ud800\"" = .error (.malformed m) ∧
        (m.cause.message = "recursion limit exceeded" ∨
          m.cause.message = "number out of range" ∨
          m.cause.message = "lone leading surrogate in hex escape" ∨
          m.cause.message = "unexpected end of hex escape") := by
  have hlist : readDocument "[]" = .ok (.array []) :=
    mapError_eq_ok_iff.2 (mapError_eq_ok_iff.2 readValue_emptyList_alone)
  have hcheck : checkDocument "\"\\ud800\"" = .ok () :=
    mapError_eq_ok_iff.2 (mapError_eq_ok_iff.2 checkValue_halfPair)
  have hread : readDocument "\"\\ud800\"" =
      .error (.malformed (Json.Fault.malformed "\"\\ud800\"" ⟨.cutSurrogate, 0⟩)) :=
    mapError_eq_error_iff.2 ⟨_, mapError_eq_error_iff.2 ⟨_, readValue_halfPair, rfl⟩, rfl⟩
  refine ⟨(checkDocument_of_readDocument "[]").1 ⟨_, hlist⟩, hcheck, _, hread, ?_⟩
  obtain ⟨m, hm, hmessage⟩ := (checkDocument_of_readDocument _).2 _ hcheck hread
  cases hm
  exact hmessage

end JsonEdit
