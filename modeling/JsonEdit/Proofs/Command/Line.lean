import JsonEdit.Proofs.Command.Run

/-!
# Flags and tasks

* `l.target?` is the file that the flags of a command line ask to write, `l.copies` says whether the
  document's file is copied before.
* `task_eq_ok`: the task of a command line does what the flags say.
* `read_append`: behind two dashes, any path and any value can be given.
-/

namespace JsonEdit.Command

namespace Line

/-- The file to be written: that of `--output`, or that of the document for an edit in place. A dry
run writes none. -/
def target? (l : Line) : Option String :=
  match l.verb with
  | .set =>
    if l.inner.has .dryRun then none
    else if l.inner.has .inPlace then l.inner.value? .input
    else l.inner.value? .output
  | .format => l.inner.value? .output
  | .validate => none

/-- A backup of the document's file is to be made. -/
def copies (l : Line) : Bool :=
  l.verb = .set && l.inner.has .backup && !l.inner.has .dryRun

variable {l : Line} {g : Given} {r : Route} {t : Task}

theorem ends_eq_ok {source target : Option String} (h : ends g = .ok (source, target)) :
    source = g.value? .input ∧
      target = (if g.has .inPlace then g.value? .input else g.value? .output) := by
  unfold ends at h
  rcases hplace : g.has .inPlace with _ | _
  · rw [hplace] at h
    obtain ⟨rfl, rfl⟩ := Prod.mk.inj (Except.ok.inj h)
    exact ⟨rfl, rfl⟩
  · rcases hin : g.value? .input with _ | file
    · rw [hplace, hin] at h
      cases h
    · rcases hout : g.value? .output with _ | other
      · rw [hplace, hin, hout] at h
        obtain ⟨rfl, rfl⟩ := Prod.mk.inj (Except.ok.inj h)
        exact ⟨rfl, rfl⟩
      · rw [hplace, hin, hout] at h
        cases h

theorem route_eq_ok (h : route g = .ok r) :
    r.source = g.value? .input ∧
      r.target? = (if g.has .inPlace then g.value? .input else g.value? .output) ∧
      r.guarded? = (if g.has .backup then g.value? .input else none) ∧
      (g.has .backup = true → (g.value? .input).isSome ∧ r.target?.isSome) := by
  unfold route at h
  rcases hends : ends g with m | ⟨source, target⟩
  · rw [hends] at h
    cases h
  obtain ⟨hsource, htarget⟩ := ends_eq_ok hends
  rw [hends] at h
  rcases hbackup : g.has .backup with _ | _
  · rw [hbackup] at h
    obtain rfl : .through source target = r := Except.ok.inj h
    exact ⟨hsource, htarget, rfl, nofun⟩
  · rw [hbackup] at h
    rcases source with _ | source
    · cases h
    rcases target with _ | target
    · cases h
    obtain rfl : .guarded source target = r := Except.ok.inj h
    exact ⟨hsource, htarget, hsource, fun _ => ⟨by simp [← hsource], rfl⟩⟩

theorem task_eq_ok (h : l.task = .ok t) :
    t.source = l.inner.value? .input ∧ t.target? = l.target? ∧
      t.guarded? = (if l.copies then l.inner.value? .input else none) ∧
      (l.copies = true → (l.inner.value? .input).isSome ∧ l.target?.isSome) := by
  unfold task at h
  unfold target? copies
  rcases hverb : l.verb
  · rw [hverb] at h
    dsimp only at h
    split at h
    swap
    · cases h
    next path value hwords =>
    obtain ⟨r, hr, rfl⟩ := map_eq_ok_iff.1 h
    obtain ⟨hsource, htarget, hguarded, hboth⟩ := route_eq_ok hr
    rcases hdry : l.inner.has .dryRun with _ | _
    · refine ⟨hsource, ?_, ?_, fun hbackup => ?_⟩
      · simpa [Task.target?, hdry] using htarget
      · simpa [Task.guarded?, hdry] using hguarded
      · have := hboth (by simpa using hbackup)
        rw [htarget] at this
        simpa using this
    · exact ⟨hsource, rfl, by simp [Task.guarded?], by simp⟩
  · rw [hverb] at h
    obtain rfl : .format (l.inner.value? .input) (l.inner.value? .output) = t := Except.ok.inj h
    exact ⟨rfl, rfl, rfl, by simp⟩
  · rw [hverb] at h
    obtain rfl : .validate (l.inner.value? .input) = t := Except.ok.inj h
    exact ⟨rfl, rfl, rfl, by simp⟩

theorem target?_of_inPlace (hcopies : l.copies = true) (hplace : l.inner.has .inPlace = true) :
    l.target? = l.inner.value? .input := by
  have hflags : (l.verb = .set ∧ l.inner.has .backup = true) ∧ l.inner.has .dryRun = false := by
    simpa [copies] using hcopies
  rw [target?, hflags.1.1]
  dsimp only
  rw [hflags.2, if_neg Bool.false_ne_true, if_pos hplace]

end Line

theorem Invocation.ofArguments_eq_ok {words : List String} {i : Invocation}
    (h : Invocation.ofArguments words = .ok i) :
    ∃ l, Line.read .nothing words = .ok l ∧ l.task = .ok i.task := by
  unfold Invocation.ofArguments at h
  split at h
  · cases h
  next l hl =>
  split at h
  · cases h
  next t ht =>
  obtain rfl : ⟨t, l.verbose, l.format⟩ = i := Except.ok.inj h
  exact ⟨l, hl, ht⟩

theorem Invocation.ofArguments_eq_error {words : List String} {halt : Halt}
    (h : Invocation.ofArguments words = .error halt) :
    (∃ h', Line.read .nothing words = .error h') ∨ ∃ m, halt = .misuse m := by
  unfold Invocation.ofArguments at h
  split at h
  · next h' hread => exact .inl ⟨h', hread⟩
  · split at h
    · exact .inr ⟨_, (Except.error.inj h).symm⟩
    · cases h

/-! ## Going on behind a line -/

namespace Given

variable {scope : Scope} {g g' : Given}

theorem closed_eq_ok_iff : g.closed = .ok g' ↔ g = g' ∧ g.awaiting = none := by
  unfold closed
  split
  · next hsome => simp [hsome]
  · next hnone => simp [hnone]

theorem addAll_cons {word : String} (hword : word ≠ "--") (words : List String) :
    g.addAll scope (word :: words) = (g.add scope word).bind (addAll scope · words) := by
  rw [addAll, if_neg hword]
  rcases g.add scope word <;> rfl

theorem addAll_append_eq {words : List String} (hwords : "--" ∉ words) (rest : List String) :
    g.addAll scope (words ++ rest) =
      (words.foldlM (add scope) g).bind (addAll scope · rest) := by
  induction words generalizing g with
  | nil => rfl
  | cons word words ih =>
    rw [List.mem_cons, not_or] at hwords
    rw [List.cons_append, addAll_cons (Ne.symm hwords.1), List.foldlM_cons]
    rcases g.add scope word with e | g'
    · rfl
    · exact ih hwords.2

theorem foldlM_of_addAll {words : List String} (hwords : "--" ∉ words)
    (h : g.addAll scope words = .ok g') :
    words.foldlM (add scope) g = .ok g' ∧ g'.awaiting = none := by
  rw [← List.append_nil words, addAll_append_eq hwords] at h
  obtain ⟨g₁, hg₁, hclosed⟩ := bind_eq_ok_iff.1 h
  obtain ⟨rfl, hawaiting⟩ := closed_eq_ok_iff.1 hclosed
  exact ⟨hg₁, hawaiting⟩

theorem addAll_dashes (words : List String) :
    g.addAll scope ("--" :: words) = g.closed.bind (addPlain scope · words) := by
  rw [addAll, if_pos rfl]
  rcases g.closed <;> rfl

theorem addPlain_two (hawaiting : g.awaiting = none) (hwords : g.words = []) (path value : String) :
    g.addPlain (.behind .set) [path, value] = .ok { g with words := [path, value] } := by
  unfold addPlain addWord
  rw [hawaiting, hwords]
  dsimp only
  rw [if_pos (by decide)]
  dsimp only
  unfold addPlain addWord
  dsimp only
  have hlast : 1 < (Scope.behind .set).capacity := by decide
  rw [List.nil_append, List.length_singleton, if_pos hlast]
  rfl

end Given

/-- A line that lacks the path and the value, with these behind two dashes. -/
def Line.withWords (l : Line) (path value : String) : Line :=
  { l with inner := { l.inner with words := [path, value] } }

theorem Line.read_verb {top : Given} {word : String} {verb : Verb} (hawaiting : top.awaiting = none)
    (hname : Verb.ofName? word = some verb) (words : List String) :
    Line.read top (word :: words) =
      (Given.nothing.addAll (.behind verb) words).map (⟨top, verb, ·⟩) := by
  rw [Line.read, hawaiting, hname]

theorem Line.read_flag {top : Given} {word : String}
    (h : ¬ (top.awaiting = none ∧ (Verb.ofName? word).isSome)) (words : List String) :
    Line.read top (word :: words) = (top.add .top word).bind (Line.read · words) := by
  rw [Line.read]
  split
  · next verb hawaiting hname => exact absurd ⟨hawaiting, by simp [hname]⟩ h
  · rcases top.add .top word <;> rfl

/-- Behind a line without two dashes, reading goes on from what was noted behind the name of the
command. -/
theorem Line.exists_inner {top : Given} {before : List String} {l : Line}
    (hdashes : "--" ∉ before) (h : Line.read top before = .ok l) :
    ∃ inners : List String, (∀ word ∈ inners, word ∈ before) ∧
      inners.foldlM (Given.add (.behind l.verb)) .nothing = .ok l.inner ∧
      l.inner.awaiting = none ∧ ∀ rest, Line.read top (before ++ rest) =
        (l.inner.addAll (.behind l.verb) rest).map (⟨l.top, l.verb, ·⟩) := by
  induction before generalizing top with
  | nil => cases h
  | cons word before ih =>
    rw [List.mem_cons, not_or] at hdashes
    by_cases hname : top.awaiting = none ∧ (Verb.ofName? word).isSome
    · obtain ⟨hawaiting, hsome⟩ := hname
      obtain ⟨verb, hverb⟩ := Option.isSome_iff_exists.1 hsome
      rw [Line.read_verb hawaiting hverb] at h
      obtain ⟨inner, hinner, rfl⟩ := map_eq_ok_iff.1 h
      obtain ⟨hfold, hclosed⟩ := Given.foldlM_of_addAll hdashes.2 hinner
      refine ⟨before, fun w hw => List.mem_cons_of_mem _ hw, hfold, hclosed, fun rest => ?_⟩
      rw [List.cons_append, Line.read_verb hawaiting hverb, Given.addAll_append_eq hdashes.2, hfold]
      rfl
    · rw [Line.read_flag hname] at h
      obtain ⟨top', hadd, hread⟩ := bind_eq_ok_iff.1 h
      obtain ⟨inners, hmem, hfold, hclosed, hrest⟩ := ih hdashes.2 hread
      refine ⟨inners, fun w hw => List.mem_cons_of_mem _ (hmem w hw), hfold, hclosed,
        fun rest => ?_⟩
      rw [List.cons_append, Line.read_flag hname, hadd]
      exact hrest rest

theorem Line.read_append {top : Given} {words : List String} {l : Line} (hdashes : "--" ∉ words)
    (h : Line.read top words = .ok l) (hverb : l.verb = .set) (hwords : l.inner.words = [])
    (path value : String) :
    Line.read top (words ++ ["--", path, value]) = .ok (l.withWords path value) := by
  obtain ⟨inners, -, -, hawaiting, hrest⟩ := Line.exists_inner hdashes h
  have hclosed : l.inner.closed = .ok l.inner := Given.closed_eq_ok_iff.2 ⟨rfl, hawaiting⟩
  rw [hrest, hverb, Given.addAll_dashes, hclosed]
  show ((l.inner.addPlain (.behind .set) [path, value]).map _) = _
  rw [Given.addPlain_two hawaiting hwords, ← hverb]
  rfl

end JsonEdit.Command
