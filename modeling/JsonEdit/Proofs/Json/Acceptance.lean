import JsonEdit.Edit.Document
import JsonEdit.Proofs.Json.Grammar
import JsonEdit.Proofs.Outcome

/-!
# The checker accepts just the grammar

* Lists and objects only differ in their brackets and in what stands before each value, so most of
  this is said once for a `Bracket`.
* `passes_of_derives`: by induction on the derivation, the checker goes past a text that the grammar
  derives and is left with what follows.
* `Closes stack s`: the text `s` ends every container of the stack. Where the checker succeeds
  behind a value, the text does that (`closes_of_checkOn`), and so the parts that were read before
  can be put together to whole containers (`Closes.parts`).
-/

namespace JsonEdit

namespace Json

/-! ## Containers -/

namespace Bracket

def opening : Bracket → Char
  | .list => '['
  | .object => '\x7b'

def closing : Bracket → Char
  | .list => ']'
  | .object => '\x7d'

/-- What stands before each value of a container. -/
def Leads : Bracket → List Char → Prop
  | .list, k => k = []
  | .object, k => IsKey k

/-- What the grammar derives between the brackets. -/
def parts : Bracket → Symbol
  | .list => .items
  | .object => .members

theorem isBlank_closing (b : Bracket) : isBlank b.closing = false := by
  cases b <;> rfl

theorem endsNumber_closing (b : Bracket) (r : List Char) : Numeral.EndsNumber (b.closing :: r) := by
  cases b with
  | list => exact endsNumber_cons (.inr (.inl rfl)) r
  | object => exact endsNumber_cons (.inr (.inr rfl)) r

/-- How the checker takes the opening bracket. -/
def taken : Bracket → Opening Unit
  | .list => .list
  | .object => .object

theorem isOpening (b : Bracket) : IsOpening b.taken [b.opening] := by
  cases b with
  | list => exact .list
  | object => exact .object

end Bracket

namespace Derives

variable {b : Bracket} {bs k w ws : List Char}

theorem empty (b : Bracket) (hb : Spaces bs) :
    Derives .value (b.opening :: (bs ++ [b.closing])) := by
  cases b with
  | list => exact .emptyArray hb
  | object => exact .emptyObject hb

theorem container (hw : Derives b.parts w) :
    Derives .value (b.opening :: (w ++ [b.closing])) := by
  cases b with
  | list => exact .array hw
  | object => exact .object hw

theorem lastPart (hk : b.Leads k) (hw : Derives .element w) : Derives b.parts (k ++ w) := by
  cases b with
  | list =>
    obtain rfl : k = [] := hk
    exact .lastItem hw
  | object => exact .lastMember (.member hk hw)

theorem moreParts (hk : b.Leads k) (hw : Derives .element w) (hws : Derives b.parts ws) :
    Derives b.parts (k ++ w ++ ',' :: ws) := by
  cases b with
  | list =>
    obtain rfl : k = [] := hk
    exact .moreItems hw hws
  | object => exact .moreMembers (.member hk hw) hws

end Derives

variable {stack : List Bracket} {b : Bracket} {bs r s t w : List Char}

/-- Goes on where a part of a container is due, a value or a key with its value. -/
def checkPart (b : Bracket) (stack : List Bracket) (s : List Char) : Except Fault Unit :=
  match b with
  | .list => checkValue (.list :: stack) s
  | .object =>
    match checkKey s with
    | .error f => .error f
    | .ok ⟨r, _⟩ => checkValue (.object :: stack) r

theorem checkValue_empty {h : r.length < s.length} {h' : t.length < r.length}
    (hs : checkOpening s = .ok (b.taken, ⟨r, h⟩)) (hr : next? r = some (b.closing, ⟨t, h'⟩)) :
    checkValue stack s = checkOn stack t := by
  rw [checkValue, hs]
  cases b with
  | list =>
    dsimp only [Bracket.taken]
    rw [hr]
    rfl
  | object =>
    dsimp only [Bracket.taken]
    rw [hr]
    rfl

theorem checkValue_container {c : Char} {h : r.length < s.length} {h' : t.length < r.length}
    (hs : checkOpening s = .ok (b.taken, ⟨r, h⟩)) (hr : next? r = some (c, ⟨t, h'⟩))
    (hc : c ≠ b.closing) : checkValue stack s = checkPart b stack r := by
  rw [checkValue, hs]
  cases b with
  | list =>
    dsimp only [Bracket.taken]
    rw [hr]
    exact if_neg hc
  | object =>
    dsimp only [Bracket.taken]
    rw [hr]
    exact if_neg hc

theorem checkOn_closing {h : r.length < s.length} (hs : next? s = some (b.closing, ⟨r, h⟩)) :
    checkOn (b :: stack) s = checkOn stack r := by
  cases b with
  | list =>
    rw [checkOn, hs]
    rfl
  | object =>
    rw [checkOn, hs]
    rfl

theorem checkOn_comma {h : r.length < s.length} (hs : next? s = some (',', ⟨r, h⟩)) :
    checkOn (b :: stack) s = checkPart b stack r := by
  cases b with
  | list =>
    rw [checkOn, hs]
    rfl
  | object =>
    rw [checkOn, hs]
    rfl

theorem checkOn_blank_append (hb : AllBlank bs) : checkOn stack (bs ++ s) = checkOn stack s := by
  rcases hs : next? s with _ | ⟨c, r, h⟩
  · have hall : next? (bs ++ s) = none :=
      next?_eq_none_iff.2 (List.forall_mem_append.2 ⟨hb, next?_eq_none_iff.1 hs⟩)
    rcases stack with _ | ⟨_ | _, stack⟩ <;> rw [checkOn, checkOn, hs, hall]
  · obtain ⟨h', e⟩ := next?_blank_append hb hs
    rcases stack with _ | ⟨_ | _, stack⟩ <;> rw [checkOn, checkOn, hs, e]

theorem checkOn_end (hs : AllBlank s) : checkOn [] s = .ok () := by
  rw [checkOn, next?_eq_none_iff.2 hs]

/-! ## What is derived is passed -/

/-- The first character of `w` that is not a blank does not close a container. -/
def StartsPart (w : List Char) : Prop :=
  ∃ bs c t, w = bs ++ c :: t ∧ AllBlank bs ∧ isBlank c = false ∧ ∀ b : Bracket, c ≠ b.closing

theorem StartsPart.append (hw : StartsPart w) (r : List Char) : StartsPart (w ++ r) := by
  obtain ⟨bs, c, t, rfl, h⟩ := hw
  exact ⟨bs, c, t ++ r, by simp, h⟩

theorem StartsPart.blank_append (hw : StartsPart w) (hb : AllBlank bs) : StartsPart (bs ++ w) := by
  obtain ⟨bs', c, t, rfl, hb', h⟩ := hw
  exact ⟨bs ++ bs', c, t, by simp, List.forall_mem_append.2 ⟨hb, hb'⟩, h⟩

theorem StartsPart.exists_next? (hw : StartsPart w) (r : List Char) :
    ∃ c t h, next? (w ++ r) = some (c, ⟨t, h⟩) ∧ ∀ b : Bracket, c ≠ b.closing := by
  obtain ⟨bs, c, t, rfl, hb, hblank, hc⟩ := hw
  rw [List.append_assoc, List.cons_append]
  obtain ⟨h, e⟩ := next?_append hb hblank (t ++ r)
  exact ⟨c, t ++ r, h, e, hc⟩

theorem startsPart_cons {c : Char} (hblank : isBlank c = false)
    (hc : c ≠ ']' ∧ c ≠ '\x7d') (t : List Char) : StartsPart (c :: t) := by
  refine ⟨[], c, t, rfl, List.forall_mem_nil _, hblank, fun b => ?_⟩
  cases b with
  | list => exact hc.1
  | object => exact hc.2

theorem startsPart_of_derives {x : Symbol} (hw : Derives x w) : StartsPart w := by
  induction hw with
  | scalar hw =>
    cases hw with
    | null | true | false => exact startsPart_cons (by decide) (by decide) _
    | number hw =>
      obtain ⟨c, t, rfl, hc⟩ := hw.head?
      obtain ⟨hblank, hlist⟩ := not_blank_of_startsNumber hc
      refine startsPart_cons hblank ⟨hlist, ?_⟩ t
      rintro rfl
      exact absurd hc (by decide)
    | string hw =>
      obtain ⟨w, rfl, -⟩ := hw
      exact startsPart_cons (by decide) (by decide) _
  | emptyArray | array | emptyObject | object =>
    exact startsPart_cons (by decide) (by decide) _
  | element hb _ _ ih => exact (ih.append _).blank_append (spaces_iff_allBlank.1 hb)
  | lastItem _ ih | lastMember _ ih => exact ih
  | moreItems _ _ ih | moreMembers _ _ ih => exact ih.append _
  | member hk =>
    obtain ⟨bs, _, bs', rfl, hb, ⟨w, rfl, -⟩, -⟩ := hk
    have := (startsPart_cons (c := '"') (by decide) (by decide) (w ++ ['"'])).append (bs' ++ [':'])
    exact (this.blank_append (spaces_iff_allBlank.1 hb)).append _

def PassesPart (b : Bracket) (w : List Char) : Prop :=
  ∀ stack r, Numeral.EndsNumber r → checkPart b stack (w ++ r) = checkOn (b :: stack) r

def PassesParts (b : Bracket) (w : List Char) : Prop :=
  ∀ stack r, checkPart b stack (w ++ b.closing :: r) = checkOn stack r

/-- The checker goes past `w`, as it would past a text that is derived from the symbol. -/
def Passes : Symbol → List Char → Prop
  | .value, w => ∀ stack bs r, AllBlank bs → Numeral.EndsNumber r →
    checkValue stack (bs ++ (w ++ r)) = checkOn stack r
  | .element, w => ∀ stack r, Numeral.EndsNumber r → checkValue stack (w ++ r) = checkOn stack r
  | .items, w => PassesParts .list w
  | .member, w => PassesPart .object w
  | .members, w => PassesParts .object w

theorem PassesPart.last (hw : PassesPart b w) : PassesParts b w := by
  intro stack r
  obtain ⟨h, e⟩ := next?_cons b.isBlank_closing r
  rw [hw stack _ (b.endsNumber_closing r), checkOn_closing e]

theorem PassesPart.more {ws : List Char} (hw : PassesPart b w) (hws : PassesParts b ws) :
    PassesParts b (w ++ ',' :: ws) := by
  intro stack r
  rw [List.append_assoc, List.cons_append]
  obtain ⟨h, e⟩ := next?_cons (c := ',') rfl (ws ++ b.closing :: r)
  rw [hw stack _ (endsNumber_cons (.inl rfl) _), checkOn_comma e, hws]

theorem passes_empty (b : Bracket) (hbs : AllBlank bs) :
    Passes .value (b.opening :: (bs ++ [b.closing])) := by
  intro stack bs' r hb' _
  have htext : b.opening :: (bs ++ [b.closing]) ++ r = [b.opening] ++ (bs ++ b.closing :: r) := by
    simp
  rw [htext]
  obtain ⟨h₁, e₁⟩ := checkOpening_append (r := bs ++ b.closing :: r) hb' b.isOpening
    (by cases b <;> nofun)
  obtain ⟨h₂, e₂⟩ := next?_append hbs b.isBlank_closing r
  exact checkValue_empty e₁ e₂

theorem passes_container (hw : PassesParts b w) (hstarts : StartsPart w) :
    Passes .value (b.opening :: (w ++ [b.closing])) := by
  intro stack bs r hb _
  have htext : b.opening :: (w ++ [b.closing]) ++ r = [b.opening] ++ (w ++ b.closing :: r) := by
    simp
  rw [htext]
  obtain ⟨h₁, e₁⟩ := checkOpening_append (r := w ++ b.closing :: r) hb b.isOpening
    (by cases b <;> nofun)
  obtain ⟨c, t, h₂, e₂, hc⟩ := hstarts.exists_next? (b.closing :: r)
  rw [checkValue_container e₁ e₂ (hc b), hw]

theorem passes_of_derives {x : Symbol} (hw : Derives x w) : Passes x w := by
  induction hw with
  | scalar hw =>
    intro stack bs r hb hr
    obtain ⟨h, e⟩ := checkOpening_append hb (.scalar hw) fun _ => hr
    rw [checkValue, e]
  | emptyArray hb => exact passes_empty .list (spaces_iff_allBlank.1 hb)
  | emptyObject hb => exact passes_empty .object (spaces_iff_allBlank.1 hb)
  | array hw ih => exact passes_container (b := .list) ih (startsPart_of_derives hw)
  | object hw ih => exact passes_container (b := .object) ih (startsPart_of_derives hw)
  | @element bs w bs' hb hw hb' ih =>
    intro stack r hr
    have hblank := spaces_iff_allBlank.1 hb'
    rw [List.append_assoc, List.append_assoc, ih stack bs (bs' ++ r) (spaces_iff_allBlank.1 hb)
      (endsNumber_blank_append hblank hr), checkOn_blank_append hblank]
  | @lastItem w _ ih =>
    have hitem : PassesPart .list w := fun stack => ih (.list :: stack)
    exact hitem.last
  | @moreItems w ws _ _ ih ihs =>
    have hitem : PassesPart .list w := fun stack => ih (.list :: stack)
    exact hitem.more ihs
  | @member k w hk hw ih =>
    intro stack r hr
    rw [List.append_assoc]
    obtain ⟨h, e⟩ := checkKey_append hk (w ++ r)
    unfold checkPart
    dsimp only
    rw [e]
    exact ih _ r hr
  | lastMember _ ih => exact ih.last
  | moreMembers _ _ ih ihs => exact ih.more ihs

/-! ## What is accepted is derived -/

/-- The text, which stands behind a complete value, ends all these containers and then itself. -/
inductive Closes : List Bracket → List Char → Prop where
  | nil {s : List Char} (hs : Spaces s) : Closes [] s
  | close {stack : List Bracket} {b : Bracket} {bs s : List Char} (hb : Spaces bs)
    (hs : Closes stack s) : Closes (b :: stack) (bs ++ b.closing :: s)
  | next {stack : List Bracket} {b : Bracket} {bs k bs' v s : List Char} (hb : Spaces bs)
    (hk : b.Leads k) (hb' : Spaces bs') (hv : Derives .value v) (hs : Closes (b :: stack) s) :
    Closes (b :: stack) (bs ++ ',' :: (k ++ (bs' ++ (v ++ s))))

/-- The text, which stands where a value is due, is a value and then ends all these containers. -/
def ClosesDue (stack : List Bracket) (s : List Char) : Prop :=
  ∃ bs v r, s = bs ++ (v ++ r) ∧ Spaces bs ∧ Derives .value v ∧ Closes stack r

/-- A value, what leads to it and the rest of its container, put together. -/
theorem Closes.parts {k v : List Char} (hs : Closes (b :: stack) s) (hk : b.Leads k)
    (hb : Spaces bs) (hv : Derives .value v) :
    ∃ w t, k ++ (bs ++ (v ++ s)) = w ++ b.closing :: t ∧ Derives b.parts w ∧ Closes stack t := by
  generalize hopen : b :: stack = opened at hs
  induction hs generalizing k bs v with
  | nil => cases hopen
  | @close _ _ bs' t hb' ht =>
    cases hopen
    exact ⟨k ++ (bs ++ (v ++ bs')), t, by simp, .lastPart hk (.element hb hv hb'), ht⟩
  | @next _ _ bs' k' bs'' v' s' hb' hk' hb'' hv' _ ih =>
    cases hopen
    obtain ⟨ws, t, hws, hderives, ht⟩ := ih hk' hb'' hv' rfl
    refine ⟨k ++ (bs ++ (v ++ bs')) ++ ',' :: ws, t, ?_, ?_, ht⟩
    · rw [hws]
      simp
    · exact .moreParts hk (.element hb hv hb') hderives

theorem exists_spaces_of_next? {c : Char} {h : r.length < s.length}
    (hs : next? s = some (c, ⟨r, h⟩)) : ∃ bs, s = bs ++ c :: r ∧ Spaces bs := by
  obtain ⟨bs, rfl, hb, -⟩ := exists_blank_of_next? hs
  exact ⟨bs, rfl, spaces_iff_allBlank.2 hb⟩

theorem exists_spaces_of_checkOpening {h : r.length < s.length}
    (hs : checkOpening s = .ok (b.taken, ⟨r, h⟩)) : ∃ bs, s = bs ++ b.opening :: r ∧ Spaces bs := by
  obtain ⟨bs, w, rfl, hb, hw⟩ := exists_isOpening_of_checkOpening hs
  refine ⟨bs, ?_, spaces_iff_allBlank.2 hb⟩
  cases b with
  | list =>
    cases hw
    rfl
  | object =>
    cases hw
    rfl

theorem closesDue_empty {h : r.length < s.length} {h' : t.length < r.length}
    (hs : checkOpening s = .ok (b.taken, ⟨r, h⟩)) (hr : next? r = some (b.closing, ⟨t, h'⟩))
    (ht : Closes stack t) : ClosesDue stack s := by
  obtain ⟨bs, rfl, hb⟩ := exists_spaces_of_checkOpening hs
  obtain ⟨bs', rfl, hb'⟩ := exists_spaces_of_next? hr
  exact ⟨bs, b.opening :: (bs' ++ [b.closing]), t, by simp, hb, .empty b hb', ht⟩

theorem closesDue_container {k : List Char} {h : (k ++ r).length < s.length}
    (hs : checkOpening s = .ok (b.taken, ⟨k ++ r, h⟩)) (hk : b.Leads k)
    (hr : ClosesDue (b :: stack) r) : ClosesDue stack s := by
  obtain ⟨bs, rfl, hb⟩ := exists_spaces_of_checkOpening hs
  obtain ⟨bs', v, r, rfl, hb', hv, hclose⟩ := hr
  obtain ⟨w, t, hw, hparts, ht⟩ := hclose.parts hk hb' hv
  exact ⟨bs, b.opening :: (w ++ [b.closing]), t, by simp [hw], hb, .container hparts, ht⟩

theorem Closes.of_closing {h : r.length < s.length} (hs : next? s = some (b.closing, ⟨r, h⟩))
    (hr : Closes stack r) : Closes (b :: stack) s := by
  obtain ⟨bs, rfl, hb⟩ := exists_spaces_of_next? hs
  exact .close hb hr

theorem Closes.of_comma {k : List Char} {h : (k ++ r).length < s.length}
    (hs : next? s = some (',', ⟨k ++ r, h⟩)) (hk : b.Leads k) (hr : ClosesDue (b :: stack) r) :
    Closes (b :: stack) s := by
  obtain ⟨bs, rfl, hb⟩ := exists_spaces_of_next? hs
  obtain ⟨bs', v, r, rfl, hb', hv, hclose⟩ := hr
  exact .next hb hk hb' hv hclose

mutual

theorem closesDue_of_checkValue {stack : List Bracket} {s : List Char}
    (h : checkValue stack s = .ok ()) : ClosesDue stack s := by
  revert h
  fun_cases checkValue stack s with
  | case2 r hr hs =>
    intro h
    obtain ⟨bs, w, hw, hb, hopening⟩ := exists_isOpening_of_checkOpening hs
    cases hopening with
    | scalar hscalar =>
      exact ⟨bs, w, r, hw, spaces_iff_allBlank.2 hb, .scalar hscalar, closes_of_checkOn h⟩
  | case4 r hr hs t ht hclose =>
    exact fun h => closesDue_empty (b := .list) hs hclose (closes_of_checkOn h)
  | case5 r hr hs =>
    exact fun h => closesDue_container (b := .list) (k := []) hs rfl (closesDue_of_checkValue h)
  | case7 r hr hs t ht hclose =>
    exact fun h => closesDue_empty (b := .object) hs hclose (closes_of_checkOn h)
  | case9 r hr hs c t ht hnext hc r' hr' hkey =>
    intro h
    obtain ⟨k, rfl, hk⟩ := exists_isKey_of_checkKey hkey
    exact closesDue_container (b := .object) hs hk (closesDue_of_checkValue h)
  | _ => simp
termination_by s.length

theorem closes_of_checkOn {stack : List Bracket} {s : List Char} (h : checkOn stack s = .ok ()) :
    Closes stack s := by
  revert h
  fun_cases checkOn stack s with
  | case1 hs => exact fun _ => .nil (spaces_iff_allBlank.2 (next?_eq_none_iff.1 hs))
  | case4 stack r hr hs => exact fun h => .of_closing (b := .list) hs (closes_of_checkOn h)
  | case5 stack r hr hs =>
    exact fun h => .of_comma (b := .list) (k := []) hs rfl (closesDue_of_checkValue h)
  | case8 stack r hr hs => exact fun h => .of_closing (b := .object) hs (closes_of_checkOn h)
  | case10 stack r hr r' hr' hkey hs =>
    intro h
    obtain ⟨k, rfl, hk⟩ := exists_isKey_of_checkKey hkey
    exact .of_comma (b := .object) hs hk (closesDue_of_checkValue h)
  | _ => simp
termination_by s.length

end

theorem checkDocument_of_derives {text : String} (h : Derives .element text.toList) :
    checkDocument text = .ok () := by
  have hpass : Passes .element text.toList := passes_of_derives h
  have hcheck := hpass [] [] endsNumber_nil
  rw [List.append_nil, checkOn_end (List.forall_mem_nil _)] at hcheck
  rw [checkDocument, mapError_eq_ok_iff, check, mapError_eq_ok_iff]
  exact hcheck

end Json

open Json

/-- A text is accepted just when it is one JSON value with nothing but blanks around it. -/
theorem checkDocument_eq_ok_iff (text : String) :
    checkDocument text = .ok () ↔ Derives .element text.toList := by
  constructor
  · intro h
    rw [checkDocument, mapError_eq_ok_iff, check, mapError_eq_ok_iff] at h
    obtain ⟨bs, v, r, hs, hb, hv, hclose⟩ := closesDue_of_checkValue h
    cases hclose with
    | nil hr =>
      rw [hs]
      exact .element hb hv hr
  · intro h
    exact checkDocument_of_derives h

end JsonEdit
