import JsonEdit.Proofs.Edit.Address
import JsonEdit.Proofs.Json.RoundTrip

/-!
# Sessions

* A session is a list of edits, each a path and a free text for the value. An edit that fails
  changes nothing, and the session goes on.
* A session may be run on a document, or on a text that is read and printed at every edit. As long
  as all documents on the way survive printing, the two runs agree, errors included.
* `every_regular_of_set`: an edit adds no repeated key and no integer beyond 64 bits, so the reader
  can only stumble over fractions and nesting.
-/

namespace JsonEdit

open Value (Regular)
open Json (print maxOpen)

/-! ## Edits keep a document regular -/

theorem Value.isOuter_regular : IsOuter Regular := by
  intro f v s h
  refine ⟨isOuter_keysDiffer f v s h.keys, ?_⟩
  rcases v with _ | _ | x | _ | vs | ms
  · rcases s with k | i <;> trivial
  · rcases s with k | i <;> trivial
  · rcases s with k | i <;> exact h.integer
  · rcases s with k | i <;> trivial
  · rcases s with k | i <;> trivial
  · rcases s with k | i <;> trivial

theorem every_regular_put {ms : List (String × Value)} {k : String} {v : Value}
    (h : (Value.object ms).Every Regular) (hv : v.Every Regular) :
    (Value.object (Members.put k v ms)).Every Regular := by
  obtain ⟨hms, hchild⟩ := Value.every_object.1 h
  refine Value.every_object.2 ⟨⟨Members.nodup_keys_put hms.keys, trivial⟩, fun k' w hw => ?_⟩
  rw [Members.find?_put] at hw
  split at hw
  · exact Option.some.inj hw ▸ hv
  · exact hchild k' w hw

theorem every_regular_setItem {vs : List Value} {v : Value} (i : Nat)
    (h : (Value.array vs).Every Regular) (hv : v.Every Regular) :
    (Value.array (vs.set i v)).Every Regular := by
  refine Value.every_regular_array fun w hw => ?_
  rcases List.mem_or_eq_of_mem_set hw with hw | rfl
  · exact (Value.every_array.1 h).2 w hw
  · exact hv

theorem Segment.Stores.every_regular {s : Segment} {v c c' : Value} {m : Location}
    (h : s.Stores v c m c') (hc : c.Every Regular) (hv : v.Every Regular) : c'.Every Regular := by
  cases h with
  | member hs => exact every_regular_put hc hv
  | element hs hm hi =>
    exact every_regular_put hc (every_regular_setItem _ ((Value.every_object.1 hc).2 _ _ hm) hv)
  | item hs hn hi => exact every_regular_setItem _ hc hv

theorem every_regular_of_set {t t' v : Value} {p : Path} (h : t.set p v = .ok t')
    (ht : t.Every Regular) (hv : v.Every Regular) : t'.Every Regular := by
  obtain ⟨c, m, c', hc, hm, rfl⟩ := set_eq_ok_iff.1 h
  exact ht.put Value.isOuter_regular (hm.every_regular (ht.get? hc) hv)

/-! ## Runs -/

/-- One edit of a session. -/
structure Edit where
  path : String
  raw : String

/-- The edit of a document. -/
def Edit.ofValue (e : Edit) (t : Value) : Except EditError Value :=
  (readPath e.path).bind fun p => t.set p (infer e.raw)

/-- The edit of a text. -/
def Edit.ofText (e : Edit) (s : String) : Except EditError String :=
  editDocument s e.path e.raw

/-- The state behind an edit. One that failed changes nothing. -/
def keep {σ : Type} (s : σ) : Except EditError σ → σ
  | .ok s' => s'
  | .error _ => s

/-- The state of a session behind its first `i` edits. -/
def stateAfter {σ : Type} (edit : Edit → σ → Except EditError σ) (s : σ) (edits : List Edit) :
    Nat → σ
  | 0 => s
  | i + 1 =>
    match edits[i]? with
    | none => stateAfter edit s edits i
    | some e => keep (stateAfter edit s edits i) (edit e (stateAfter edit s edits i))

/-- What every edit that succeeds keeps is kept by a session. -/
theorem stateAfter_induction {σ : Type} {edit : Edit → σ → Except EditError σ} {s : σ}
    {P : σ → Prop} (hs : P s) (hedit : ∀ e s s', P s → edit e s = .ok s' → P s')
    (edits : List Edit) (i : Nat) : P (stateAfter edit s edits i) := by
  induction i with
  | zero => exact hs
  | succ i ih =>
    rw [stateAfter]
    rcases edits[i]? with _ | e
    · exact ih
    · show P (keep (stateAfter edit s edits i) (edit e (stateAfter edit s edits i)))
      rcases he : edit e (stateAfter edit s edits i) with err | s'
      · exact ih
      · exact hedit e _ s' ih he

theorem keep_map {σ τ : Type} (f : σ → τ) (s : σ) (r : Except EditError σ) :
    keep (f s) (r.map f) = f (keep s r) := by
  rcases r with err | s' <;> rfl

/-! ## Documents and texts -/

theorem Edit.every_regular {e : Edit} {t t' : Value} (ht : t.Every Regular)
    (h : e.ofValue t = .ok t') : t'.Every Regular := by
  unfold Edit.ofValue at h
  rcases hp : readPath e.path with err | p
  · rw [hp] at h
    simp [Except.bind] at h
  · rw [hp] at h
    exact every_regular_of_set h ht (every_regular_infer e.raw)

theorem Edit.ofText_print {t : Value} (ht : t.Every Regular)
    (hfrac : t.Every Value.FractionSurvives) (hn : t.nesting ≤ maxOpen) (e : Edit) :
    e.ofText (print t) = (e.ofValue t).map print := by
  rw [Edit.ofText, editDocument_eq, readDocument_print (Value.every_writable ht hfrac) hn,
    Edit.ofValue]
  rcases readPath e.path with err | p <;> rfl

/-- A session on the text of a document is the session on the document, printed, as long as every
document on the way nests at most 127 containers and has fractions that survive alone. -/
theorem stateAfter_ofText_print {d : String} {t : Value} (hread : readDocument d = .ok t)
    {edits : List Edit}
    (h : ∀ i, (stateAfter Edit.ofValue t edits i).nesting ≤ 127 ∧
      (stateAfter Edit.ofValue t edits i).Every Value.FractionSurvives) :
    ∀ i, stateAfter Edit.ofText (print t) edits i = print (stateAfter Edit.ofValue t edits i) ∧
      ∀ e, edits[i]? = some e →
        e.ofText (stateAfter Edit.ofText (print t) edits i) =
          (e.ofValue (stateAfter Edit.ofValue t edits i)).map print := by
  -- repeated keys and integers beyond 64 bits are not assumed away: no run meets any
  have hregular : ∀ i, (stateAfter Edit.ofValue t edits i).Every Regular :=
    stateAfter_induction (every_regular_of_readDocument hread)
      (fun e _ _ ht he => e.every_regular ht he) edits
  have hedit : ∀ i (e : Edit), e.ofText (print (stateAfter Edit.ofValue t edits i)) =
      (e.ofValue (stateAfter Edit.ofValue t edits i)).map print := fun i e =>
    e.ofText_print (hregular i) (h i).2 (h i).1
  have hstate : ∀ i, stateAfter Edit.ofText (print t) edits i =
      print (stateAfter Edit.ofValue t edits i) := by
    intro i
    induction i with
    | zero => rfl
    | succ i ih =>
      rw [stateAfter, stateAfter, ih]
      rcases edits[i]? with _ | e
      · rfl
      · show keep _ (e.ofText _) = _
        rw [hedit i e, keep_map]
  intro i
  refine ⟨hstate i, fun e _ => ?_⟩
  rw [hstate i]
  exact hedit i e

theorem stateAfter_ofText_print_two :
    stateAfter Edit.ofText (print (.object [("half", .number (.fraction 0.5))]))
        [⟨"on", "true"⟩, ⟨"half.x", "1"⟩] 2 =
      print (.object [("half", .number (.fraction 0.5)), ("on", .boolean true)]) ∧
    Edit.ofText ⟨"half.x", "1"⟩
        (stateAfter Edit.ofText (print (.object [("half", .number (.fraction 0.5))]))
          [⟨"on", "true"⟩, ⟨"half.x", "1"⟩] 1) =
      .error (.mismatch "half.x" 1 .container .number) := by
  have hword : infer "true" = .boolean true := by
    have hprint : print (.boolean true) = "true" := rfl
    have hfrac : (Value.boolean true).Every Value.FractionSurvives :=
      (Value.every_scalar (by simp [Value.kind]) (by simp [Value.kind])).2 trivial
    rw [← hprint]
    exact infer_of_readDocument (readDocument_print
      (Value.every_writable (Value.every_regular_boolean true) hfrac) (Nat.zero_le _))
  have hhalf : (Value.number (.fraction 0.5)).Every Value.FractionSurvives :=
    (Value.every_scalar (by simp [Value.kind]) (by simp [Value.kind])).2 fractionSurvives_half
  have hbool : (Value.boolean true).Every Value.FractionSurvives :=
    (Value.every_scalar (by simp [Value.kind]) (by simp [Value.kind])).2 trivial
  have hread : readDocument (print (.object [("half", .number (.fraction 0.5))])) =
      .ok (.object [("half", .number (.fraction 0.5))]) := by
    refine readDocument_print (Value.every_writable ?_ ?_) (by decide)
    · exact Value.every_regular_object (by simp [Members.keys])
        (by simpa using Value.every_regular_number (x := .fraction 0.5) trivial)
    · exact Value.every_object_of_mem trivial (by simpa using hhalf)
  have hfirst : Edit.ofValue ⟨"on", "true"⟩ (.object [("half", .number (.fraction 0.5))]) =
      .ok (.object [("half", .number (.fraction 0.5)), ("on", .boolean true)]) := by
    rw [Edit.ofValue, hword]
    rfl
  have hsecond : Edit.ofValue ⟨"half.x", "1"⟩
      (.object [("half", .number (.fraction 0.5)), ("on", .boolean true)]) =
      .error (.mismatch "half.x" 1 .container .number) := rfl
  have hstates : ∀ i, stateAfter Edit.ofValue (.object [("half", .number (.fraction 0.5))])
      [⟨"on", "true"⟩, ⟨"half.x", "1"⟩] (i + 1) =
      .object [("half", .number (.fraction 0.5)), ("on", .boolean true)] := by
    intro i
    induction i with
    | zero => exact congrArg (keep (.object [("half", .number (.fraction 0.5))])) hfirst
    | succ i ih =>
      rw [stateAfter, ih]
      rcases i with _ | i
      · exact congrArg (keep _) hsecond
      · rfl
  have hsurvives : ∀ i, (stateAfter Edit.ofValue (.object [("half", .number (.fraction 0.5))])
        [⟨"on", "true"⟩, ⟨"half.x", "1"⟩] i).nesting ≤ 127 ∧
      (stateAfter Edit.ofValue (.object [("half", .number (.fraction 0.5))])
        [⟨"on", "true"⟩, ⟨"half.x", "1"⟩] i).Every Value.FractionSurvives := by
    intro i
    rcases i with _ | i
    · exact ⟨by decide, Value.every_object_of_mem trivial (by simpa using hhalf)⟩
    · rw [hstates i]
      exact ⟨by decide, Value.every_object_of_mem trivial (by simpa using ⟨hhalf, hbool⟩)⟩
  have h := stateAfter_ofText_print hread hsurvives
  refine ⟨(h 2).1.trans (congrArg print (hstates 1)), ?_⟩
  rw [(h 1).2 _ rfl, hstates 0, hsecond]
  rfl

end JsonEdit
