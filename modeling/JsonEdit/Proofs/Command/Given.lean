import JsonEdit.Proofs.Command.Line
import Mathlib.Logic.Relation

/-!
# What has been given

* Reading the words of a scope notes one thing after the other. `Given.Step` lists what one thing
  may be, and whatever is read comes from such steps (`steps_addAll`).
* So what has been given stays given (`Notes.steps`), and just the flags that take a value have one
  (`Typed.steps`).
-/

namespace JsonEdit.Command

variable {f h : Flag} {v : String} {scope : Scope} {g g₁ : Given}

namespace Given

/-! ## Steps -/

/-- One thing is noted: a plain word, a value, a switch, or a flag whose value is to come. -/
inductive Step (g : Given) : Given → Prop where
  | word (w : String) (hg : g.awaiting = none) : Step g { g with words := g.words ++ [w] }
  | value {f : Flag} (v : String)
    (hg : g.awaiting = some f ∨ g.awaiting = none ∧ f.takesValue = true) :
    Step g { g with values := g.values ++ [(f, v)], awaiting := none }
  | switch {f : Flag} (hf : f.takesValue = false) (hg : g.awaiting = none) :
    Step g { g with switches := g.switches ++ [f] }
  | await {f : Flag} (hf : f.takesValue = true) (hg : g.awaiting = none) :
    Step g { g with awaiting := some f }

/-- Things noted one after the other. -/
abbrev Steps : Given → Given → Prop :=
  Relation.ReflTransGen Step

theorem addValue_eq_ok (hv : g.addValue f v = .ok g₁) :
    g₁ = { g with values := g.values ++ [(f, v)], awaiting := none } := by
  unfold addValue at hv
  split at hv
  · exact (Except.ok.inj hv).symm
  · cases hv

theorem addSwitch_eq_ok (hf : g.addSwitch f = .ok g₁) :
    g₁ = { g with switches := g.switches ++ [f] } := by
  cases f
  case help | version => cases hf
  all_goals exact (Except.ok.inj hf).symm

theorem step_addFlag {attached : Option String} (hf : g.addFlag f attached = .ok g₁) :
    Step g g₁ := by
  unfold addFlag at hf
  split at hf
  · cases hf
  next hg =>
  split at hf
  · cases hf
  split at hf
  · next v htakes =>
    rw [addValue_eq_ok hf]
    exact .value v (.inr ⟨hg, htakes⟩)
  · next htakes =>
    obtain rfl : { g with awaiting := some f } = g₁ := Except.ok.inj hf
    exact .await htakes hg
  · cases hf
  · next htakes =>
    rw [addSwitch_eq_ok hf]
    exact .switch htakes hg

theorem step_addWord {word : String} (hw : g.addWord scope word = .ok g₁) : Step g g₁ := by
  unfold addWord at hw
  split at hw
  · next f hg =>
    rw [addValue_eq_ok hw]
    exact .value word (.inl hg)
  · next hg =>
    split at hw
    · obtain rfl : { g with words := g.words ++ [word] } = g₁ := Except.ok.inj hw
      exact .word word hg
    · cases hw

theorem addLetters_switch {c : Char} {cs : List Char} {word : String}
    (hc : scope.letter? c = some f) (hf : f.takesValue = false) :
    g.addLetters scope word (c :: cs) =
      (g.addFlag f none).bind (addLetters scope · word cs) := by
  rw [addLetters, hc]
  dsimp only
  rw [hf, if_neg Bool.false_ne_true]
  rcases g.addFlag f none <;> rfl

theorem addLetters_value {c : Char} (cs : List Char) (word : String)
    (hc : scope.letter? c = some f) (hf : f.takesValue = true) :
    ∃ attached, ∀ g : Given, g.addLetters scope word (c :: cs) = g.addFlag f attached := by
  rcases cs with _ | ⟨d, ds⟩
  · refine ⟨none, fun g => ?_⟩
    rw [addLetters, hc]
    dsimp only
    rw [hf, if_pos rfl]
  · refine ⟨some (String.ofList (if d = '=' then ds else d :: ds)), fun g => ?_⟩
    rw [addLetters, hc]
    dsimp only
    rw [hf, if_pos rfl]

theorem steps_addLetters {word : String} {cs : List Char}
    (hw : g.addLetters scope word cs = .ok g₁) : Steps g g₁ := by
  induction cs generalizing g with
  | nil =>
    obtain rfl : g = g₁ := Except.ok.inj hw
    exact .refl
  | cons c cs ih =>
    rcases hc : scope.letter? c with _ | f
    · rw [addLetters, hc] at hw
      cases hw
    rcases hf : f.takesValue with _ | _
    · rw [addLetters_switch hc hf] at hw
      obtain ⟨g₂, hflag, hrest⟩ := bind_eq_ok_iff.1 hw
      exact .head (step_addFlag hflag) (ih hrest)
    · obtain ⟨attached, heq⟩ := addLetters_value cs word hc hf
      rw [heq] at hw
      exact .single (step_addFlag hw)

theorem steps_addLong {word : String} {s : List Char} (hw : g.addLong scope word s = .ok g₁) :
    Steps g g₁ := by
  unfold addLong at hw
  dsimp only at hw
  split at hw
  · exact .single (step_addFlag hw)
  · split at hw
    · exact .single (step_addWord hw)
    · cases hw

theorem steps_add {word : String} (hw : g.add scope word = .ok g₁) : Steps g g₁ := by
  unfold add at hw
  split at hw
  · exact steps_addLong hw
  · split at hw
    · exact .single (step_addWord hw)
    · exact steps_addLetters hw
  · exact .single (step_addWord hw)

theorem addPlain_cons (word : String) (words : List String) :
    g.addPlain scope (word :: words) = (g.addWord scope word).bind (addPlain scope · words) := by
  rw [addPlain]
  rcases g.addWord scope word <;> rfl

theorem steps_addPlain {words : List String} (hw : g.addPlain scope words = .ok g₁) :
    Steps g g₁ := by
  induction words generalizing g with
  | nil =>
    obtain rfl : g = g₁ := Except.ok.inj hw
    exact .refl
  | cons word words ih =>
    rw [addPlain_cons] at hw
    obtain ⟨g₂, hword, hrest⟩ := bind_eq_ok_iff.1 hw
    exact .head (step_addWord hword) (ih hrest)

theorem steps_addAll {words : List String} (hw : g.addAll scope words = .ok g₁) : Steps g g₁ := by
  induction words generalizing g with
  | nil =>
    obtain ⟨rfl, -⟩ := closed_eq_ok_iff.1 hw
    exact .refl
  | cons word words ih =>
    by_cases hdashes : word = "--"
    · rw [hdashes, addAll_dashes] at hw
      obtain ⟨g₂, hclosed, hrest⟩ := bind_eq_ok_iff.1 hw
      obtain ⟨rfl, -⟩ := closed_eq_ok_iff.1 hclosed
      exact steps_addPlain hrest
    · rw [addAll_cons hdashes] at hw
      obtain ⟨g₂, hadd, hrest⟩ := bind_eq_ok_iff.1 hw
      exact (steps_add hadd).trans (ih hrest)

/-! ## What has been given -/

theorem has_switch : ({ g with switches := g.switches ++ [h] } : Given).has f =
    (g.has f || decide (f = h)) := by
  simp [has]

theorem value?_value {waiting : Option Flag} :
    ({ g with values := g.values ++ [(h, v)], awaiting := waiting } : Given).value? f =
      (g.value? f).or (if h = f then some v else none) := by
  rw [value?, Members.find?_append]
  rfl

/-- The flag has been given, or its value is to come. -/
def Notes (g : Given) (f : Flag) : Prop :=
  g.has f = true ∨ (g.value? f).isSome = true ∨ g.awaiting = some f

instance (g : Given) (f : Flag) : Decidable (g.Notes f) :=
  inferInstanceAs (Decidable (_ ∨ _ ∨ _))

theorem Notes.step (hf : g.Notes f) (hs : Step g g₁) : g₁.Notes f := by
  cases hs with
  | word w hg => exact hf
  | @value h v hg =>
    rcases hf with hf | hf | hf
    · exact .inl hf
    · refine .inr (.inl ?_)
      rw [value?_value, Option.isSome_or, hf, Bool.true_or]
    · refine .inr (.inl ?_)
      rcases hg with hg | ⟨hg, -⟩
      · obtain rfl : f = h := Option.some.inj (hf.symm.trans hg)
        rw [value?_value, if_pos rfl]
        simp
      · rw [hg] at hf
        cases hf
  | @switch h htakes hg =>
    rcases hf with hf | hf | hf
    · refine .inl ?_
      rw [has_switch, hf, Bool.true_or]
    · exact .inr (.inl hf)
    · exact .inr (.inr hf)
  | @await h htakes hg =>
    rcases hf with hf | hf | hf
    · exact .inl hf
    · exact .inr (.inl hf)
    · rw [hg] at hf
      cases hf

theorem Notes.steps (hf : g.Notes f) (hs : Steps g g₁) : g₁.Notes f := by
  induction hs with
  | refl => exact hf
  | tail _ hstep ih => exact ih.step hstep

/-- Just the flags that take a value have one. -/
structure Typed (g : Given) : Prop where
  switches : ∀ f, g.has f = true → f.takesValue = false
  values : ∀ f, (g.value? f).isSome = true → f.takesValue = true
  awaiting : ∀ f, g.awaiting = some f → f.takesValue = true

theorem Typed.step (hg : g.Typed) (hs : Step g g₁) : g₁.Typed := by
  cases hs with
  | word w _ => exact ⟨hg.switches, hg.values, hg.awaiting⟩
  | @value h v hh =>
    refine ⟨hg.switches, fun f hf => ?_, nofun⟩
    rw [value?_value, Option.isSome_or, Bool.or_eq_true] at hf
    rcases hf with hf | hf
    · exact hg.values f hf
    · split at hf
      · next heq =>
        subst heq
        exact hh.elim (hg.awaiting _) And.right
      · cases hf
  | @switch h htakes _ =>
    refine ⟨fun f hf => ?_, hg.values, hg.awaiting⟩
    rw [has_switch, Bool.or_eq_true, decide_eq_true_eq] at hf
    exact hf.elim (hg.switches f) fun heq => heq ▸ htakes
  | @await h htakes _ =>
    refine ⟨hg.switches, hg.values, fun f hf => ?_⟩
    obtain rfl : h = f := Option.some.inj hf
    exact htakes

theorem Typed.steps (hg : g.Typed) (hs : Steps g g₁) : g₁.Typed := by
  induction hs with
  | refl => exact hg
  | tail _ hstep ih => exact ih.step hstep

end Given

end JsonEdit.Command
