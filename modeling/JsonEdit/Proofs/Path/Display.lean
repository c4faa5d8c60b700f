import JsonEdit.Proofs.Path.Grammar

/-!
# Paths written and read back

* `Segment.displayAll`: segments as the text of a path.
* `Path.trimmed`: a text without the superfluous zeros of its indices. It is told by the characters
  of the text alone.
* Main statement: what segments are written as is read as these segments, and what is read of a text
  is written as the text without its superfluous zeros. So two texts are read alike just when they
  agree without these.
-/

namespace JsonEdit

/-- Segments with dots between them. -/
def Segment.displayAll (ss : List Segment) : String :=
  ".".intercalate (ss.map display)

namespace Path

open Segment (displayAll)

/-- A zero at the front with another digit behind it. -/
def leadsZero : List Char → Bool
  | '0' :: d :: _ => d.isDigit
  | _ => false

/-- `s` without the zeros that another digit follows, behind each opening bracket, and at the front
if `opened` is true. -/
def trimFrom (opened : Bool) : List Char → List Char
  | [] => []
  | c :: s =>
    if opened && leadsZero (c :: s) then trimFrom true s else c :: trimFrom (c = '[') s

/-- The text without the superfluous zeros of its indices. -/
def trimmed (text : String) : String :=
  String.ofList (trimFrom false text.toList)

variable {s ds w : List Char} {i : Nat}

theorem leadsZero_iff : leadsZero s = true ↔ ∃ d r, d.isDigit = true ∧ s = '0' :: d :: r := by
  unfold leadsZero
  split
  · next d r => simp
  · next h =>
    refine iff_of_false Bool.false_ne_true ?_
    rintro ⟨d, r, -, rfl⟩
    exact h d r rfl

theorem leadsZero_append_dot (w s : List Char) : leadsZero (w ++ '.' :: s) = leadsZero w := by
  rw [Bool.eq_iff_iff, leadsZero_iff, leadsZero_iff]
  rcases w with _ | ⟨c, _ | ⟨d, w⟩⟩
  · simp
  · simp
  · simp

/-! ## Trimming a piece -/

theorem trimFrom_append_of_not_mem (hs : '[' ∉ s) (r : List Char) :
    trimFrom false (s ++ r) = s ++ trimFrom false r := by
  induction s with
  | nil => rfl
  | cons c s ih =>
    obtain ⟨hc, hs⟩ := List.ne_and_not_mem_of_not_mem_cons hs
    have hopen : decide (c = '[') = false := decide_eq_false hc.symm
    rw [List.cons_append, trimFrom, Bool.false_and, if_neg Bool.false_ne_true, hopen, ih hs,
      List.cons_append]

theorem trimFrom_of_not_mem (hs : '[' ∉ s) : trimFrom false s = s := by
  have h := trimFrom_append_of_not_mem hs []
  rwa [trimFrom, List.append_nil] at h

/-- Where no zero at the front is superfluous, it does not matter that an index starts there. -/
theorem trimFrom_true (hs : leadsZero s = false) : trimFrom true s = trimFrom false s := by
  cases s with
  | nil => rfl
  | cons c s => rw [trimFrom, trimFrom, hs, Bool.and_false, Bool.and_false]

theorem trimFrom_index (hds : IsIndex ds i) :
    trimFrom true (ds ++ [']']) = Decimal.digits i ++ [']'] := by
  induction ds with
  | nil => exact absurd rfl hds.ne_nil
  | cons d ds ih =>
    by_cases hzero : leadsZero (d :: ds ++ [']']) = true
    · obtain ⟨e, r, he, hr⟩ := leadsZero_iff.1 hzero
      have hne : ds ≠ [] := by
        rintro rfl
        have hclose : ']' = e := (List.cons.inj (List.cons.inj hr).2).1
        rw [← hclose] at he
        exact absurd he (by decide)
      obtain ⟨rfl, -⟩ := List.cons.inj hr
      have hrest : IsIndex ds i :=
        ⟨hne, fun c hc => hds.digits c (List.mem_cons_of_mem _ hc), hds.value, hds.bound⟩
      rw [List.cons_append] at hzero ⊢
      rw [trimFrom, hzero, Bool.true_and, if_pos rfl, ih hrest]
    · have hlead : ∀ e r, d :: ds ≠ '0' :: e :: r := by
        intro e r h
        have he : e.isDigit = true := hds.digits e (by simp [h])
        exact hzero (leadsZero_iff.2 ⟨e, r ++ [']'], he, by simp [h]⟩)
      have hopen : '[' ∉ d :: ds ++ [']'] := by
        rw [List.mem_append, not_or]
        exact ⟨hds.isName.not_mem.2.1, by decide⟩
      rw [trimFrom_true (Bool.not_eq_true _ ▸ hzero), trimFrom_of_not_mem hopen, ← hds.value,
        Decimal.digits_value hds.ne_nil hds.digits hlead]

theorem trimFrom_of_writes {s : Segment} (h : Segment.Writes w s) :
    trimFrom false w = s.display.toList := by
  cases h with
  | name h =>
    rw [trimFrom_of_not_mem h.not_mem.2.1]
    exact String.toList_ofList.symm
  | @element name ds i h hi =>
    have hindex : trimFrom false ('[' :: (ds ++ [']'])) = '[' :: trimFrom true (ds ++ [']']) := rfl
    rw [trimFrom_append_of_not_mem h.not_mem.2.1, hindex, trimFrom_index hi]
    simp [Segment.display, Decimal.numeral]

/-! ## Trimming a text -/

theorem trimFrom_append_dot (opened : Bool) (w s : List Char) :
    trimFrom opened (w ++ '.' :: s) = trimFrom opened w ++ '.' :: trimFrom false s := by
  induction w generalizing opened with
  | nil => simp [trimFrom, leadsZero]
  | cons c w ih =>
    rw [List.cons_append, trimFrom, trimFrom, ← List.cons_append, leadsZero_append_dot]
    split
    · exact ih true
    · rw [ih, List.cons_append]

theorem trimFrom_intercalate (ws : List (List Char)) :
    trimFrom false (['.'].intercalate ws) = ['.'].intercalate (ws.map (trimFrom false)) := by
  induction ws with
  | nil => rfl
  | cons w ws ih =>
    cases ws with
    | nil => simp
    | cons w' ws =>
      simp only [List.map_cons, List.intercalate_cons_cons, List.append_assoc,
        List.singleton_append] at ih ⊢
      rw [trimFrom_append_dot, ih]

theorem length_trimFrom_le (opened : Bool) (s : List Char) :
    (trimFrom opened s).length ≤ s.length := by
  induction s generalizing opened with
  | nil => exact Nat.le_refl _
  | cons c s ih =>
    rw [trimFrom]
    split
    · exact Nat.le_succ_of_le (ih true)
    · exact Nat.succ_le_succ (ih _)

theorem trimFrom_eq_self_iff {opened : Bool} :
    trimFrom opened s = s ↔
      (opened && leadsZero s) = false ∧ ∀ a r, s = a ++ '[' :: r → leadsZero r = false := by
  induction s generalizing opened with
  | nil => simp [trimFrom, leadsZero]
  | cons c s ih =>
    rw [trimFrom]
    split
    · next h =>
      rw [h]
      refine iff_of_false (fun e => ?_) (fun e => Bool.noConfusion e.1)
      have hlength := length_trimFrom_le true s
      rw [e, List.length_cons] at hlength
      omega
    · next h =>
      rw [Bool.not_eq_true] at h
      rw [List.cons.injEq, ih, h]
      simp only [true_and, List.cons_eq_append_iff]
      constructor
      · rintro ⟨hfront, hrest⟩ a r (⟨rfl, hr⟩ | ⟨a, rfl, hs⟩)
        · obtain ⟨rfl, rfl⟩ := List.cons.inj hr
          simpa using hfront
        · exact hrest a r hs
      · intro hall
        refine ⟨?_, fun a r hs => hall (c :: a) r (.inr ⟨a, rfl, hs⟩)⟩
        by_cases hc : c = '['
        · simpa [hc] using hall [] s (.inl ⟨rfl, by rw [hc]⟩)
        · simp [hc]

/-! ## Whole paths -/

section

variable {text : String} {p : Path} {ss : List Segment}

theorem toList_displayAll (ss : List Segment) :
    (displayAll ss).toList = ['.'].intercalate (ss.map fun s => s.display.toList) := by
  rw [displayAll, String.toList_intercalate, List.map_map]
  rfl

theorem exists_parse_displayAll (hne : ss ≠ []) (h : ∀ s ∈ ss, s.IsWritable) :
    ∃ p, parse (displayAll ss) = .ok p ∧ p.segments = ss := by
  have hdot : ∀ w ∈ ss.map fun s => s.display.toList, '.' ∉ w := by
    intro w hw
    obtain ⟨s, hs, rfl⟩ := List.mem_map.1 hw
    exact (h s hs).writes_display.dot_not_mem
  refine exists_parse_of_forall₂_writes ?_
  rw [toList_displayAll, List.splitOn_intercalate '.' hdot (by simpa using hne)]
  exact forall₂_writes_display h

theorem segments_ne_nil (p : Path) : p.segments ≠ [] :=
  List.concat_ne_nil p.last p.leading

/-- What is read of a text is written as the text without superfluous zeros. -/
theorem displayAll_eq_trimmed (h : parse text = .ok p) :
    displayAll p.segments = trimmed text := by
  obtain ⟨-, hpieces⟩ := parse_eq_ok_iff.1 h
  have hdisplay : (text.toList.splitOn '.').map (trimFrom false) =
      p.segments.map fun s => s.display.toList := by
    rw [← List.forall₂_eq_eq_eq, List.forall₂_map_left_iff, List.forall₂_map_right_iff]
    exact hpieces.imp fun w s hw => trimFrom_of_writes hw
  rw [← String.toList_inj, toList_displayAll, ← hdisplay, ← trimFrom_intercalate,
    List.intercalate_splitOn, trimmed, String.toList_ofList]

theorem exists_parse_displayAll_segments (h : parse text = .ok p) :
    ∃ q, parse (displayAll p.segments) = .ok q ∧ q.segments = p.segments :=
  exists_parse_displayAll p.segments_ne_nil (isWritable_of_parse h)

theorem trimmed_eq_self_iff :
    trimmed text = text ↔
      ∀ a d b, d.isDigit = true → text.toList ≠ a ++ '[' :: '0' :: d :: b := by
  rw [← String.toList_inj, trimmed, String.toList_ofList, trimFrom_eq_self_iff]
  simp only [Bool.false_and, true_and]
  constructor
  · intro h a d b hd htext
    have hlead := h a ('0' :: d :: b) htext
    rw [Bool.eq_false_iff] at hlead
    exact hlead (leadsZero_iff.2 ⟨d, b, hd, rfl⟩)
  · intro h a r htext
    rw [Bool.eq_false_iff]
    intro hlead
    obtain ⟨d, b, hd, rfl⟩ := leadsZero_iff.1 hlead
    exact h a d b hd htext

theorem segments_eq_iff {text' : String} {q : Path} (hp : parse text = .ok p)
    (hq : parse text' = .ok q) : p.segments = q.segments ↔ trimmed text = trimmed text' := by
  rw [← displayAll_eq_trimmed hp, ← displayAll_eq_trimmed hq]
  constructor
  · exact congrArg displayAll
  · intro h
    obtain ⟨p', hp', hsegments⟩ := exists_parse_displayAll_segments hp
    obtain ⟨q', hq', hsegments'⟩ := exists_parse_displayAll_segments hq
    rw [h, hq'] at hp'
    obtain rfl := Except.ok.inj hp'
    rw [← hsegments, ← hsegments']

/-- Writing segments and reading paths undo each other. Segments that can be written are read back
from what they are written as. What is read of a text is written as a text that is read alike: the
text without the superfluous zeros of its indices, so the text itself just when it has none. Two
texts are read as the same segments just when they agree without these zeros. -/
theorem parse_displayAll_and_displayAll_of_parse :
    (∀ ss : List Segment, ss ≠ [] → (∀ s ∈ ss, s.IsWritable) →
      ∃ p, parse (displayAll ss) = .ok p ∧ p.segments = ss) ∧
    (∀ text p, parse text = .ok p →
      (∃ q, parse (displayAll p.segments) = .ok q ∧ q.segments = p.segments) ∧
      displayAll p.segments = trimmed text ∧
      (displayAll p.segments = text ↔
        ∀ a d b, d.isDigit = true → text.toList ≠ a ++ '[' :: '0' :: d :: b)) ∧
    ∀ text text' p q, parse text = .ok p → parse text' = .ok q →
      (p.segments = q.segments ↔ trimmed text = trimmed text') := by
  refine ⟨fun ss hne h => exists_parse_displayAll hne h, fun text p h => ?_,
    fun text text' p q hp hq => segments_eq_iff hp hq⟩
  refine ⟨exists_parse_displayAll_segments h, displayAll_eq_trimmed h, ?_⟩
  rw [displayAll_eq_trimmed h, trimmed_eq_self_iff]

theorem parse_displayAll_largest_index :
    (∃ p, parse (displayAll [.element "a" (2 ^ 64 - 1), .key "0"]) = .ok p ∧
      p.segments = [.element "a" (2 ^ 64 - 1), .key "0"]) ∧
    displayAll [.element "a" 7, .key "0"] = trimmed "a[007].0" ∧
    trimmed "a[007].0" = trimmed "a[07].0" := by
  obtain ⟨hwrite, hread, halike⟩ := parse_displayAll_and_displayAll_of_parse
  have hlong : parse "a[007].0" = .ok ⟨"a[007].0", [.element "a" 7], .key "0"⟩ := by decide
  have hshort : parse "a[07].0" = .ok ⟨"a[07].0", [.element "a" 7], .key "0"⟩ := by decide
  have hwritable : ∀ s ∈ [Segment.element "a" (2 ^ 64 - 1), .key "0"], s.IsWritable := by
    rw [List.forall_mem_cons, List.forall_mem_singleton]
    exact ⟨⟨⟨by decide, by simp [Segment.element]⟩, by simp [Segment.element]⟩,
      ⟨⟨by decide, by simp [Segment.key]⟩, by simp [Segment.key]⟩⟩
  exact ⟨hwrite _ (List.cons_ne_nil _ _) hwritable, (hread _ _ hlong).2.1,
    (halike _ _ _ _ hlong hshort).1 rfl⟩

end

end Path

end JsonEdit
