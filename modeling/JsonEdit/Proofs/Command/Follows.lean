import JsonEdit.Proofs.Command.Given

/-!
# Reading with one more flag

* `Plus f x g g'`: more has been given in `g'` than in `g`, the flag `f` and nothing else.
* From there on the same words are read in the same way: reading stops where it stopped, or gives
  something that again has one more flag. Only where `f` is given a second time it stops for that.
  `Follows` says so, with a lemma for each function that reads (`follow_addAll`,
  `follow_read_top`).
-/

namespace JsonEdit.Command

variable {f h : Flag} {x v : String} {scope : Scope} {g g' g₁ : Given}

namespace Given

/-! ## One scope -/

/-- `g'` is `g` with one more flag. A flag that takes a value has the value `x`. -/
structure Plus (f : Flag) (x : String) (g g' : Given) : Prop where
  absent : ¬ g.Notes f
  words : g'.words = g.words
  awaiting : g'.awaiting = g.awaiting
  has_eq : ∀ h, h ≠ f → g'.has h = g.has h
  value?_eq : ∀ h, h ≠ f → g'.value? h = g.value? h
  present : if f.takesValue then g'.value? f = some x else g'.has f = true

theorem Plus.repeated (hp : Plus f x g g') : g'.has f = true ∨ (g'.value? f).isSome = true := by
  have hpresent := hp.present
  split at hpresent
  · exact .inr (by rw [hpresent]; rfl)
  · exact .inl hpresent

end Given

/-- How reading goes on with one more flag `f`. It stops where it stopped before, or it gives what
is related by `R`, or it stops as `f` is given again. The last is so for a reason `M`, and then what
is read without the flag has `f` as well, as `N` says. -/
inductive Follows {α : Type} (f : Flag) (R : α → α → Prop) (N : α → Prop) (M : Prop) :
    Except Halt α → Except Halt α → Prop where
  | halt (e : Halt) : Follows f R N M (.error e) (.error e)
  | ok {a a' : α} (hr : R a a') : Follows f R N M (.ok a) (.ok a')
  | again {y : Except Halt α} (hm : M) (hn : ∀ a, y = .ok a → N a) :
    Follows f R N M y (.error (.misuse (.repeated f)))

theorem Follows.bind {α β : Type} {R : α → α → Prop} {N : α → Prop} {R' : β → β → Prop}
    {N' : β → Prop} {M : Prop} {y y' : Except Halt α} {k : α → Except Halt β}
    (hy : Follows f R N M y y') (hk : ∀ a a', R a a' → Follows f R' N' M (k a) (k a'))
    (hN : ∀ a b, N a → k a = .ok b → N' b) : Follows f R' N' M (y.bind k) (y'.bind k) := by
  cases hy with
  | halt e => exact .halt e
  | ok hr => exact hk _ _ hr
  | again hm hn =>
    refine .again hm fun b hb => ?_
    obtain ⟨a, ha, hka⟩ := bind_eq_ok_iff.1 hb
    exact hN a b (hn a ha) hka

theorem Follows.map {α β : Type} {R : α → α → Prop} {N : α → Prop} {R' : β → β → Prop}
    {N' : β → Prop} {M : Prop} {y y' : Except Halt α} {k : α → β} (hy : Follows f R N M y y')
    (hk : ∀ a a', R a a' → R' (k a) (k a')) (hN : ∀ a, N a → N' (k a)) :
    Follows f R' N' M (y.map k) (y'.map k) := by
  cases hy with
  | halt e => exact .halt e
  | ok hr => exact .ok (hk _ _ hr)
  | again hm hn =>
    refine .again hm fun b hb => ?_
    obtain ⟨a, ha, rfl⟩ := map_eq_ok_iff.1 hb
    exact hN a (hn a ha)

namespace Given

variable {M : Prop} {word : String}

/-- Reading a scope with one more flag. -/
abbrev Follow (f : Flag) (x : String) (M : Prop) : Except Halt Given → Except Halt Given → Prop :=
  Follows f (Plus f x) (·.Notes f) M

theorem follow_addValue (hp : Plus f x g g') (hne : h ≠ f) :
    Follow f x M (g.addValue h v) (g'.addValue h v) := by
  unfold addValue
  split
  · refine .ok ⟨?_, hp.words, rfl, hp.has_eq, fun k hk => ?_, ?_⟩
    · rintro (hf | hf | hf)
      · exact hp.absent (.inl hf)
      · rw [value?_value, if_neg hne, Option.or_none] at hf
        exact hp.absent (.inr (.inl hf))
      · cases hf
    · rw [value?_value, value?_value, hp.value?_eq k hk]
    · rw [value?_value, if_neg hne, Option.or_none]
      exact hp.present
  · exact .halt _

theorem follow_addSwitch (hp : Plus f x g g') (hne : h ≠ f) :
    Follow f x M (g.addSwitch h) (g'.addSwitch h) := by
  have hplus : Plus f x { g with switches := g.switches ++ [h] }
      { g' with switches := g'.switches ++ [h] } := by
    refine ⟨?_, hp.words, hp.awaiting, fun k hk => ?_, hp.value?_eq, ?_⟩
    · rintro (hf | hf | hf)
      · rw [has_switch, decide_eq_false (Ne.symm hne), Bool.or_false] at hf
        exact hp.absent (.inl hf)
      · exact hp.absent (.inr (.inl hf))
      · exact hp.absent (.inr (.inr hf))
    · rw [has_switch, has_switch, hp.has_eq k hk]
    · rw [has_switch, decide_eq_false (Ne.symm hne), Bool.or_false]
      exact hp.present
  cases h
  case help | version => exact .halt _
  all_goals exact .ok hplus

theorem notes_addFlag {attached : Option String} (hf : g.addFlag f attached = .ok g₁) :
    g₁.Notes f := by
  unfold addFlag at hf
  split at hf
  · cases hf
  split at hf
  · cases hf
  split at hf
  · rw [addValue_eq_ok hf]
    refine .inr (.inl ?_)
    rw [value?_value, if_pos rfl]
    simp
  · obtain rfl : { g with awaiting := some f } = g₁ := Except.ok.inj hf
    exact .inr (.inr rfl)
  · cases hf
  · rw [addSwitch_eq_ok hf]
    refine .inl ?_
    rw [has_switch, decide_eq_true rfl, Bool.or_true]

theorem follow_addFlag {attached : Option String} (hp : Plus f x g g') (hm : h = f → M) :
    Follow f x M (g.addFlag h attached) (g'.addFlag h attached) := by
  by_cases hne : h = f
  · subst hne
    rcases hg : g.awaiting with _ | waiting
    · have hagain : g'.addFlag h attached = .error (.misuse (.repeated h)) := by
        rw [addFlag.eq_def, hp.awaiting, hg]
        dsimp only
        rw [if_pos hp.repeated]
      rw [hagain]
      exact .again (hm rfl) fun a ha => notes_addFlag ha
    · rw [addFlag.eq_def, addFlag.eq_def, hp.awaiting, hg]
      exact .halt _
  · unfold addFlag
    rw [hp.awaiting, hp.has_eq h hne, hp.value?_eq h hne]
    split
    · exact .halt _
    next hg =>
    split
    · exact .halt _
    split
    · exact follow_addValue hp hne
    · refine .ok ⟨?_, hp.words, rfl, hp.has_eq, hp.value?_eq, hp.present⟩
      rintro (hf | hf | hf)
      · exact hp.absent (.inl hf)
      · exact hp.absent (.inr (.inl hf))
      · exact hne (Option.some.inj hf)
    · exact .halt _
    · exact follow_addSwitch hp hne

theorem follow_addWord (hp : Plus f x g g') :
    Follow f x M (g.addWord scope word) (g'.addWord scope word) := by
  unfold addWord
  rw [hp.awaiting, hp.words]
  split
  · next waiting hg =>
    refine follow_addValue hp ?_
    rintro rfl
    exact hp.absent (.inr (.inr hg))
  · split
    · exact .ok ⟨hp.absent, rfl, rfl, hp.has_eq, hp.value?_eq, hp.present⟩
    · exact .halt _

/-- A letter that stands for a switch; behind it in a word there may be more letters. -/
def IsSwitch (c : Char) : Prop :=
  ∃ h : Flag, h.letter? = some c ∧ h.takesValue = false

theorem follow_addLetters {cs : List Char} (hp : Plus f x g g')
    (hm : ∀ ds c es, cs = ds ++ c :: es → (∀ d ∈ ds, IsSwitch d) → f.letter? = some c → M) :
    Follow f x M (g.addLetters scope word cs) (g'.addLetters scope word cs) := by
  induction cs generalizing g g' with
  | nil => exact .ok hp
  | cons c cs ih =>
    rcases hc : scope.letter? c with _ | h
    · rw [addLetters, addLetters, hc]
      exact .halt _
    have hletter : h.letter? = some c := by simpa using List.find?_some hc
    have hflag : h = f → M := fun heq =>
      hm [] c cs rfl (List.forall_mem_nil _) (heq ▸ hletter)
    rcases hh : h.takesValue with _ | _
    · rw [addLetters_switch hc hh, addLetters_switch hc hh]
      have hrest : ∀ ds d es, cs = ds ++ d :: es → (∀ d ∈ ds, IsSwitch d) →
          f.letter? = some d → M := fun ds d es hcs hds =>
        hm (c :: ds) d es (by rw [hcs, List.cons_append])
          (List.forall_mem_cons.2 ⟨⟨h, hletter, hh⟩, hds⟩)
      exact (follow_addFlag hp hflag).bind (fun a a' ha => ih ha hrest)
        fun a b ha hb => ha.steps (steps_addLetters hb)
    · obtain ⟨attached, heq⟩ := addLetters_value cs word hc hh
      rw [heq, heq]
      exact follow_addFlag hp hflag

/-- Read as a flag, or as several, the word gives the flag `f`. -/
inductive Mentions (f : Flag) (word : String) : Prop where
  | long {s : List Char} (hword : word.toList = '-' :: '-' :: s) (hs : (splitLong s).1 = f.long)
  | letter {c : Char} {ds es : List Char} (hword : word.toList = '-' :: (ds ++ c :: es))
    (hds : ∀ d ∈ ds, IsSwitch d) (hf : f.letter? = some c)

theorem follow_addLong {s : List Char} (hp : Plus f x g g') (hm : (splitLong s).1 = f.long → M) :
    Follow f x M (g.addLong scope word s) (g'.addLong scope word s) := by
  have hatValue : g'.atValue scope = g.atValue scope := by rw [atValue, atValue, hp.words]
  unfold addLong
  dsimp only
  rw [hatValue]
  split
  · next h hname =>
    have hlong : h.long = (splitLong s).1 := by simpa using List.find?_some hname
    exact follow_addFlag hp fun heq => hm (heq ▸ hlong.symm)
  · split
    · exact follow_addWord hp
    · exact .halt _

theorem follow_add (hp : Plus f x g g') (hm : Mentions f word → M) :
    Follow f x M (g.add scope word) (g'.add scope word) := by
  have hatValue : g'.atValue scope = g.atValue scope := by rw [atValue, atValue, hp.words]
  unfold add
  rw [hatValue]
  split
  · next s hs => exact follow_addLong hp fun hname => hm (.long hs hname)
  · next c cs _ hs =>
    split
    · exact follow_addWord hp
    · exact follow_addLetters hp fun ds d es hcs hds hletter =>
        hm (.letter (by rw [hs, hcs]) hds hletter)
  · exact follow_addWord hp

theorem follow_addPlain {words : List String} (hp : Plus f x g g') :
    Follow f x M (g.addPlain scope words) (g'.addPlain scope words) := by
  induction words generalizing g g' with
  | nil => exact .ok hp
  | cons word words ih =>
    rw [addPlain_cons, addPlain_cons]
    exact (follow_addWord hp).bind (fun a a' ha => ih ha)
      fun a b ha hb => ha.steps (steps_addPlain hb)

theorem follow_closed (hp : Plus f x g g') : Follow f x M g.closed g'.closed := by
  unfold closed
  rw [hp.awaiting]
  split
  · exact .halt _
  · exact .ok hp

/-- The words that may be flags: those before `--`. -/
def flagWords (words : List String) : List String :=
  words.takeWhile (· ≠ "--")

theorem flagWords_cons {words : List String} (h : word ≠ "--") :
    flagWords (word :: words) = word :: flagWords words :=
  List.takeWhile_cons_of_pos (decide_eq_true h)

theorem flagWords_append {words : List String} (h : "--" ∉ words) (rest : List String) :
    flagWords (words ++ rest) = words ++ flagWords rest :=
  List.takeWhile_append_of_pos fun _ hw => decide_eq_true (ne_of_mem_of_not_mem hw h)

theorem follow_addAll {words : List String} (hp : Plus f x g g')
    (hm : ∀ word ∈ flagWords words, Mentions f word → M) :
    Follow f x M (g.addAll scope words) (g'.addAll scope words) := by
  induction words generalizing g g' with
  | nil => exact follow_closed hp
  | cons word words ih =>
    by_cases hdashes : word = "--"
    · rw [hdashes, addAll_dashes, addAll_dashes]
      exact (follow_closed hp).bind (fun a a' ha => follow_addPlain ha)
        fun a b ha hb => ha.steps (steps_addPlain hb)
    · rw [flagWords_cons hdashes] at hm
      rw [addAll_cons hdashes, addAll_cons hdashes]
      exact (follow_add hp (hm word List.mem_cons_self)).bind
        (fun a a' ha => ih ha fun w hw => hm w (List.mem_cons_of_mem _ hw))
        fun a b ha hb => ha.steps (steps_addAll hb)

theorem add_dashes_top : g.add .top "--" = .error (.misuse (.unexpected "--")) := rfl

end Given

/-! ## Lines -/

namespace Line

open Given (Mentions Steps flagWords)

variable {l l' : Line} {top top' : Given} {words : List String} {M : Prop}

/-- The flag is given before the name of the command or behind it. -/
def Notes (l : Line) (f : Flag) : Prop :=
  l.top.Notes f ∨ l.inner.Notes f

instance (l : Line) (f : Flag) : Decidable (l.Notes f) :=
  inferInstanceAs (Decidable (_ ∨ _))

/-- `l'` is `l` with one more flag, in one of the two scopes. -/
inductive Plus (f : Flag) (x : String) : Line → Line → Prop where
  | top {top top' : Given} {verb : Verb} {inner : Given} (h : Given.Plus f x top top') :
    Plus f x ⟨top, verb, inner⟩ ⟨top', verb, inner⟩
  | inner {top : Given} {verb : Verb} {inner inner' : Given} (h : Given.Plus f x inner inner') :
    Plus f x ⟨top, verb, inner⟩ ⟨top, verb, inner'⟩

/-- Reading a line with one more flag. -/
abbrev Follow (f : Flag) (x : String) (M : Prop) : Except Halt Line → Except Halt Line → Prop :=
  Follows f (Plus f x) (·.Notes f) M

theorem steps_read (h : Line.read top words = .ok l) :
    Steps top l.top ∧ Steps .nothing l.inner := by
  induction words generalizing top with
  | nil => cases h
  | cons word words ih =>
    by_cases hname : top.awaiting = none ∧ (Verb.ofName? word).isSome
    · obtain ⟨hawaiting, hsome⟩ := hname
      obtain ⟨verb, hverb⟩ := Option.isSome_iff_exists.1 hsome
      rw [Line.read_verb hawaiting hverb] at h
      obtain ⟨inner, hinner, rfl⟩ := map_eq_ok_iff.1 h
      exact ⟨.refl, Given.steps_addAll hinner⟩
    · rw [Line.read_flag hname] at h
      obtain ⟨top₁, hadd, hread⟩ := bind_eq_ok_iff.1 h
      obtain ⟨htop, hinner⟩ := ih hread
      exact ⟨(Given.steps_add hadd).trans htop, hinner⟩

theorem follow_read_top (hp : Given.Plus f x top top')
    (hm : ∀ word ∈ flagWords words, Mentions f word → M) :
    Follow f x M (Line.read top words) (Line.read top' words) := by
  induction words generalizing top top' with
  | nil => exact .halt _
  | cons word words ih =>
    by_cases hname : top.awaiting = none ∧ (Verb.ofName? word).isSome
    · obtain ⟨hawaiting, hsome⟩ := hname
      obtain ⟨verb, hverb⟩ := Option.isSome_iff_exists.1 hsome
      rw [Line.read_verb hawaiting hverb, Line.read_verb (hp.awaiting.trans hawaiting) hverb]
      rcases Given.nothing.addAll (.behind verb) words with e | inner
      · exact .halt e
      · exact .ok (.top hp)
    have hname' : ¬ (top'.awaiting = none ∧ (Verb.ofName? word).isSome) := by
      rwa [hp.awaiting]
    rw [Line.read_flag hname, Line.read_flag hname']
    by_cases hdashes : word = "--"
    · rw [hdashes, Given.add_dashes_top, Given.add_dashes_top]
      exact .halt _
    · rw [Given.flagWords_cons hdashes] at hm
      exact (Given.follow_add hp (hm word List.mem_cons_self)).bind
        (fun a a' ha => ih ha fun w hw => hm w (List.mem_cons_of_mem _ hw))
        fun a l ha hl => .inl (ha.steps (steps_read hl).1)

theorem follow_map_inner {inner inner' : Given} {verb : Verb} (hp : Given.Plus f x inner inner')
    (hm : ∀ word ∈ flagWords words, Mentions f word → M) :
    Follow f x M ((inner.addAll (.behind verb) words).map (⟨top, verb, ·⟩))
      ((inner'.addAll (.behind verb) words).map (⟨top, verb, ·⟩)) :=
  (Given.follow_addAll hp hm).map (fun _ _ ha => .inner ha) fun _ ha => .inr ha

end Line

end JsonEdit.Command
