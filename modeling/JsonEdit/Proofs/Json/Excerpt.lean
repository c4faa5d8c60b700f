import JsonEdit.Proofs.Json.RoundTrip
import JsonEdit.Proofs.Json.Taken

/-!
# Values inside a text

* `reaches_readValue`: what is read alone as a value is read as the same value inside other
  containers, unless too many of them are open.
* `exists_excerpt_of_readValue`: what is read as a value inside other containers is read alone as
  the same value.
* `kind_of_goOn`: the outermost container tells which kind of value will be read. So a value that is
  no container is what a text between blanks writes (`cases_of_readValue`), and every such text is
  read (`WritesScalar.readValue`).
-/

namespace JsonEdit.Json

variable {s r t : List Char}

/-! ## A value inside other containers -/

theorem goOn_blank_append {bs : List Char} (hb : AllBlank bs) (stack : List Frame) (v : Value)
    (s : List Char) : goOn stack v (bs ++ s) = goOn stack v s := by
  rcases hs : next? s with _ | ⟨c, r, h⟩
  · have hnone : next? (bs ++ s) = none :=
      next?_eq_none_iff.2 (List.forall_mem_append.2 ⟨hb, next?_eq_none_iff.1 hs⟩)
    rw [goOn.eq_def stack v (bs ++ s), goOn.eq_def stack v s, hnone, hs]
  · obtain ⟨h', e⟩ := next?_blank_append hb hs
    rw [goOn.eq_def stack v (bs ++ s), goOn.eq_def stack v s, e, hs]

/-- The reader goes on from `x` as from `y`, unless `base` makes the open containers too many. -/
def Reaches (base : List Frame) (x y : Except Fault Value) : Prop :=
  x = y ∨ base ≠ [] ∧ ∃ unread, x = .error ⟨.tooDeep, unread⟩

section

variable {base stack : List Frame} {x y z : Except Fault Value}

theorem Reaches.of_eq (h : x = y) (h' : Reaches base y z) : Reaches base x z :=
  h ▸ h'

theorem Reaches.tooDeep {unread : Nat} (hlt : stack.length < maxOpen)
    (hbase : ¬ (stack ++ base).length < maxOpen) (h : x = .error ⟨.tooDeep, unread⟩) :
    Reaches base x y := by
  refine .inr ⟨?_, unread, h⟩
  rintro rfl
  rw [List.append_nil] at hbase
  exact hbase hlt

end

mutual

/-- What is read as a value, in some open containers, is read as this value with more containers
around them and more text behind it. -/
theorem reaches_readValue (base stack : List Frame) (s : List Char) {v : Value}
    (ht : Numeral.EndsNumber t) (h : readValue stack s = .ok v) :
    Reaches base (readValue (stack ++ base) (s ++ t)) (goOn base v t) := by
  revert h
  fun_cases readValue stack s with
  | case2 u r hr hs =>
    intro h
    obtain ⟨w, rfl, hw⟩ := exists_readOpening_append hs
    -- a number still ends where it did: what follows it does so in `s`, or is `t`
    obtain ⟨h₁, e₁⟩ := hw (r ++ t) fun _ _ =>
      Numeral.head?_append_ends (endsNumber_of_goOn h) ht
    rw [List.append_assoc]
    exact .of_eq (readValue_scalar e₁) (reaches_goOn base stack u r ht h)
  | case4 r hr hs hopen r' hr' hclose =>
    intro h
    obtain ⟨w, rfl, hw⟩ := exists_readOpening_append hs
    obtain ⟨h₁, e₁⟩ := hw (r ++ t) nofun
    obtain ⟨h₂, e₂⟩ := next?_append_right hclose t
    rw [List.append_assoc, readValue, e₁]
    dsimp only
    split
    · rw [e₂]
      exact reaches_goOn base stack (.array []) r' ht h
    · next hbase => exact .tooDeep hopen hbase rfl
  | case5 r hr hs hopen c r' hr' hnext hc =>
    intro h
    obtain ⟨w, rfl, hw⟩ := exists_readOpening_append hs
    obtain ⟨h₁, e₁⟩ := hw (r ++ t) nofun
    obtain ⟨h₂, e₂⟩ := next?_append_right hnext t
    rw [List.append_assoc, readValue, e₁]
    dsimp only
    split
    · rw [e₂]
      dsimp only
      rw [if_neg hc]
      exact reaches_readValue base (.items [] :: stack) r ht h
    · next hbase => exact .tooDeep hopen hbase rfl
  | case8 r hr hs hopen r' hr' hclose =>
    intro h
    obtain ⟨w, rfl, hw⟩ := exists_readOpening_append hs
    obtain ⟨h₁, e₁⟩ := hw (r ++ t) nofun
    obtain ⟨h₂, e₂⟩ := next?_append_right hclose t
    rw [List.append_assoc, readValue, e₁]
    dsimp only
    split
    · rw [e₂]
      exact reaches_goOn base stack (.object []) r' ht h
    · next hbase => exact .tooDeep hopen hbase rfl
  | case10 r hr hs hopen r' hr' key r'' hr'' hkey hnext hc =>
    intro h
    obtain ⟨w, rfl, hw⟩ := exists_readOpening_append hs
    obtain ⟨h₁, e₁⟩ := hw (r ++ t) nofun
    obtain ⟨h₂, e₂⟩ := next?_append_right hnext t
    obtain ⟨h₃, e₃⟩ := readKey_append hkey t
    rw [List.append_assoc, readValue, e₁]
    dsimp only
    split
    · rw [e₂]
      dsimp only
      rw [if_neg hc, if_pos rfl, e₃]
      exact reaches_readValue base (.members [] key :: stack) r'' ht h
    · next hbase => exact .tooDeep hopen hbase rfl
  | _ => simp
termination_by s.length

theorem reaches_goOn (base stack : List Frame) (u : Value) (s : List Char) {v : Value}
    (ht : Numeral.EndsNumber t) (h : goOn stack u s = .ok v) :
    Reaches base (goOn (stack ++ base) u (s ++ t)) (goOn base v t) := by
  revert h
  fun_cases goOn stack u s with
  | case1 hs =>
    intro h
    obtain rfl : u = v := Except.ok.inj h
    exact .inl (goOn_blank_append (next?_eq_none_iff.1 hs) base u t)
  | case4 done stack r hr hs =>
    intro h
    obtain ⟨h₁, e₁⟩ := next?_append_right hs t
    exact .of_eq (goOn_closeList e₁) (reaches_goOn base stack _ r ht h)
  | case7 done stack r hr c r' hr' hnext hc hs =>
    intro h
    obtain ⟨h₁, e₁⟩ := next?_append_right hs t
    obtain ⟨h₂, e₂⟩ := next?_append_right hnext t
    exact .of_eq (goOn_nextItem e₁ e₂ hc)
      (reaches_readValue base (.items (u :: done) :: stack) r ht h)
  | case10 done key stack r hr hs =>
    intro h
    obtain ⟨h₁, e₁⟩ := next?_append_right hs t
    exact .of_eq (goOn_closeObject e₁) (reaches_goOn base stack _ r ht h)
  | case13 done key stack r hr r' hr' key' r'' hr'' hkey hs hc hnext =>
    intro h
    obtain ⟨h₁, e₁⟩ := next?_append_right hs t
    obtain ⟨h₂, e₂⟩ := next?_append_right hnext t
    obtain ⟨h₃, e₃⟩ := readKey_append hkey t
    exact .of_eq (goOn_nextMember e₁ e₂ e₃)
      (reaches_readValue base (.members (Members.put key u done) key' :: stack) r'' ht h)
  | _ => simp
termination_by s.length

end

/-! ## Taking a value out of its containers -/

theorem exists_next?_of_readValue {stack : List Frame} {v : Value}
    (hs : readValue stack s = .ok v) : ∃ c r h, next? s = some (c, ⟨r, h⟩) := by
  rcases hnext : next? s with _ | ⟨c, r, h⟩
  · rw [readValue] at hs
    unfold readOpening at hs
    rw [hnext] at hs
    simp at hs
  · exact ⟨c, r, h, rfl⟩

theorem exists_next?_of_append {stack : List Frame} {v : Value} {c : Char}
    {h : r.length < (s ++ t).length} (hs : readValue stack s = .ok v)
    (hnext : next? (s ++ t) = some (c, ⟨r, h⟩)) : ∃ r' h', next? s = some (c, ⟨r', h'⟩) := by
  obtain ⟨d, r', h', hd⟩ := exists_next?_of_readValue hs
  obtain ⟨h'', e⟩ := next?_append_right hd t
  rw [e] at hnext
  obtain rfl : d = c := congrArg Prod.fst (Option.some.inj hnext)
  exact ⟨r', h', hd⟩

mutual

/-- What is read in some containers is read up to where the outer ones go on, and up to there it is
read without them. -/
theorem exists_excerpt_of_readValue {outer : Frame} {base stack : List Frame} {w : Value}
    (inner : List Frame) (s : List Char) (hstack : stack = inner ++ outer :: base)
    (h : readValue stack s = .ok w) :
    ∃ x t v, s = x ++ t ∧ readValue inner x = .ok v ∧ goOn (outer :: base) v t = .ok w := by
  have hopen (hlt : stack.length < maxOpen) : inner.length < maxOpen := by
    rw [hstack, List.length_append] at hlt
    omega
  revert h
  fun_cases readValue stack s with
  | case2 u r hr hs =>
    intro h
    obtain ⟨x, t, v, rfl, hx, ht⟩ := exists_excerpt_of_goOn inner r hstack h
    obtain ⟨p, rfl, hp⟩ := exists_readOpening_append hs
    obtain ⟨h₁, e₁⟩ := hp x fun _ _ => endsNumber_of_append (endsNumber_of_goOn h)
    refine ⟨p ++ x, t, v, (List.append_assoc ..).symm, ?_, ht⟩
    rw [readValue_scalar e₁]
    exact hx
  | case4 r hr hs hlt r' hr' hclose =>
    intro h
    obtain ⟨x, t, v, rfl, hx, ht⟩ := exists_excerpt_of_goOn inner r' hstack h
    obtain ⟨p, rfl, hp⟩ := exists_readOpening_append hs
    obtain ⟨bs, rfl, hb, hbracket⟩ := exists_blank_of_next? hclose
    obtain ⟨h₁, e₁⟩ := hp (bs ++ ']' :: x) nofun
    obtain ⟨h₂, e₂⟩ := next?_append hb hbracket x
    refine ⟨p ++ (bs ++ ']' :: x), t, v, by simp, ?_, ht⟩
    rw [readValue, e₁]
    dsimp only
    rw [if_pos (hopen hlt), e₂]
    exact hx
  | case5 r hr hs hlt c r' hr' hnext hc =>
    intro h
    obtain ⟨x, t, v, rfl, hx, ht⟩ :=
      exists_excerpt_of_readValue (.items [] :: inner) r
        (congrArg (Frame.items [] :: ·) hstack) h
    obtain ⟨p, rfl, hp⟩ := exists_readOpening_append hs
    obtain ⟨h₁, e₁⟩ := hp x nofun
    -- the list does not end here in `x` either, as a value is read from `x`
    obtain ⟨x', h₂, e₂⟩ := exists_next?_of_append hx hnext
    refine ⟨p ++ x, t, v, (List.append_assoc ..).symm, ?_, ht⟩
    rw [readValue, e₁]
    dsimp only
    rw [if_pos (hopen hlt), e₂]
    dsimp only
    rw [if_neg hc]
    exact hx
  | case8 r hr hs hlt r' hr' hclose =>
    intro h
    obtain ⟨x, t, v, rfl, hx, ht⟩ := exists_excerpt_of_goOn inner r' hstack h
    obtain ⟨p, rfl, hp⟩ := exists_readOpening_append hs
    obtain ⟨bs, rfl, hb, hbrace⟩ := exists_blank_of_next? hclose
    obtain ⟨h₁, e₁⟩ := hp (bs ++ '\x7d' :: x) nofun
    obtain ⟨h₂, e₂⟩ := next?_append hb hbrace x
    refine ⟨p ++ (bs ++ '\x7d' :: x), t, v, by simp, ?_, ht⟩
    rw [readValue, e₁]
    dsimp only
    rw [if_pos (hopen hlt), e₂]
    exact hx
  | case10 r hr hs hlt r' hr' key r'' hr'' hkey hnext hc =>
    intro h
    obtain ⟨x, t, v, rfl, hx, ht⟩ :=
      exists_excerpt_of_readValue (.members [] key :: inner) r''
        (congrArg (Frame.members [] key :: ·) hstack) h
    obtain ⟨p, rfl, hp⟩ := exists_readOpening_append hs
    obtain ⟨bs, rfl, hb, hquote⟩ := exists_blank_of_next? hnext
    obtain ⟨k, rfl, hk⟩ := takes_of_readKey hkey
    obtain ⟨h₁, e₁⟩ := hp (bs ++ '"' :: (k ++ x)) nofun
    obtain ⟨h₂, e₂⟩ := next?_append hb hquote (k ++ x)
    obtain ⟨h₃, e₃⟩ := hk x
    refine ⟨p ++ (bs ++ '"' :: (k ++ x)), t, v, by simp, ?_, ht⟩
    rw [readValue, e₁]
    dsimp only
    rw [if_pos (hopen hlt), e₂]
    dsimp only
    rw [if_neg hc, if_pos rfl, e₃]
    exact hx
  | _ => simp
termination_by s.length

theorem exists_excerpt_of_goOn {outer : Frame} {base stack : List Frame} {u w : Value}
    (inner : List Frame) (s : List Char) (hstack : stack = inner ++ outer :: base)
    (h : goOn stack u s = .ok w) :
    ∃ x t v, s = x ++ t ∧ goOn inner u x = .ok v ∧ goOn (outer :: base) v t = .ok w := by
  rcases inner with _ | ⟨frame, inner⟩
  · obtain rfl : stack = outer :: base := hstack
    exact ⟨[], s, u, rfl, goOn_end (List.forall_mem_nil _), h⟩
  revert h
  fun_cases goOn stack u s with
  | case1 hs => simp at hstack
  | case4 done rest r hr hs =>
    intro h
    obtain ⟨rfl, hrest⟩ := List.cons.inj hstack
    obtain ⟨x, t, v, rfl, hx, ht⟩ := exists_excerpt_of_goOn inner r hrest h
    obtain ⟨bs, rfl, hb, hbracket⟩ := exists_blank_of_next? hs
    obtain ⟨h₁, e₁⟩ := next?_append hb hbracket x
    refine ⟨bs ++ ']' :: x, t, v, by simp, ?_, ht⟩
    rw [goOn_closeList e₁]
    exact hx
  | case7 done rest r hr c r' hr' hnext hc hs =>
    intro h
    obtain ⟨rfl, hrest⟩ := List.cons.inj hstack
    obtain ⟨x, t, v, rfl, hx, ht⟩ :=
      exists_excerpt_of_readValue (.items (u :: done) :: inner) r
        (congrArg (Frame.items (u :: done) :: ·) hrest) h
    obtain ⟨bs, rfl, hb, hcomma⟩ := exists_blank_of_next? hs
    obtain ⟨h₁, e₁⟩ := next?_append hb hcomma x
    obtain ⟨x', h₂, e₂⟩ := exists_next?_of_append hx hnext
    refine ⟨bs ++ ',' :: x, t, v, by simp, ?_, ht⟩
    rw [goOn_nextItem e₁ e₂ hc]
    exact hx
  | case10 done key rest r hr hs =>
    intro h
    obtain ⟨rfl, hrest⟩ := List.cons.inj hstack
    obtain ⟨x, t, v, rfl, hx, ht⟩ := exists_excerpt_of_goOn inner r hrest h
    obtain ⟨bs, rfl, hb, hbrace⟩ := exists_blank_of_next? hs
    obtain ⟨h₁, e₁⟩ := next?_append hb hbrace x
    refine ⟨bs ++ '\x7d' :: x, t, v, by simp, ?_, ht⟩
    rw [goOn_closeObject e₁]
    exact hx
  | case13 done key rest r hr r' hr' key' r'' hr'' hkey hs hc hnext =>
    intro h
    obtain ⟨rfl, hrest⟩ := List.cons.inj hstack
    obtain ⟨x, t, v, rfl, hx, ht⟩ :=
      exists_excerpt_of_readValue (.members (Members.put key u done) key' :: inner) r''
        (congrArg (Frame.members (Members.put key u done) key' :: ·) hrest) h
    obtain ⟨bs, rfl, hb, hcomma⟩ := exists_blank_of_next? hs
    obtain ⟨cs, rfl, hcs, hquote⟩ := exists_blank_of_next? hnext
    obtain ⟨k, rfl, hk⟩ := takes_of_readKey hkey
    obtain ⟨h₁, e₁⟩ := next?_append hb hcomma (cs ++ '"' :: (k ++ x))
    obtain ⟨h₂, e₂⟩ := next?_append hcs hquote (k ++ x)
    obtain ⟨h₃, e₃⟩ := hk x
    refine ⟨bs ++ ',' :: (cs ++ '"' :: (k ++ x)), t, v, by simp, ?_, ht⟩
    rw [goOn_nextMember e₁ e₂ e₃]
    exact hx
  | _ => simp
termination_by s.length

end

/-! ## Kinds -/

/-- What an open container will be when it is closed. -/
def Frame.kind : Frame → Kind
  | .items _ => .array
  | .members _ _ => .object

theorem goOn_nil_eq_ok_iff {v w : Value} : goOn [] v s = .ok w ↔ AllBlank s ∧ v = w := by
  constructor
  · intro h
    rw [goOn] at h
    rcases hs : next? s with _ | ⟨c, r, hr⟩
    · rw [hs] at h
      exact ⟨next?_eq_none_iff.1 hs, Except.ok.inj h⟩
    · rw [hs] at h
      cases h
  · rintro ⟨hs, rfl⟩
    exact goOn_end hs

mutual

theorem kind_of_readValue {f : Frame} {w : Value} (s : List Char) (h : readValue [f] s = .ok w) :
    w.kind = f.kind := by
  obtain ⟨x, t, v, hs, -, ht⟩ := exists_excerpt_of_readValue [] s rfl h
  have hlength : t.length ≤ s.length := by
    rw [hs, List.length_append]
    exact Nat.le_add_left ..
  exact kind_of_goOn v t ht
termination_by 2 * s.length + 1

theorem kind_of_goOn {f : Frame} {w : Value} (v : Value) (s : List Char)
    (h : goOn [f] v s = .ok w) : w.kind = f.kind := by
  revert h
  generalize hstack : [f] = stack
  fun_cases goOn stack v s with
  | case4 done stack r hr hs =>
    intro h
    obtain ⟨rfl, rfl⟩ := List.cons.inj hstack
    obtain ⟨-, rfl⟩ := goOn_nil_eq_ok_iff.1 h
    rfl
  | case7 done stack r hr c r' hr' hnext hc hs =>
    intro h
    obtain ⟨rfl, rfl⟩ := List.cons.inj hstack
    show w.kind = (Frame.items (v :: done)).kind
    exact kind_of_readValue r h
  | case10 done key stack r hr hs =>
    intro h
    obtain ⟨rfl, rfl⟩ := List.cons.inj hstack
    obtain ⟨-, rfl⟩ := goOn_nil_eq_ok_iff.1 h
    rfl
  | case13 done key stack r hr r' hr' key' r'' hr'' hkey hs hc hnext =>
    intro h
    obtain ⟨rfl, rfl⟩ := List.cons.inj hstack
    show w.kind = (Frame.members (Members.put key v done) key').kind
    exact kind_of_readValue r'' h
  | case1 hs => simp at hstack
  | _ => simp
termination_by 2 * s.length

end

/-- A value alone is written between blanks, or it is a container and begins as one. -/
theorem cases_of_readValue {v : Value} (h : readValue [] s = .ok v) :
    (∃ bs w cs, s = bs ++ (w ++ cs) ∧ AllBlank bs ∧ WritesScalar w v ∧ AllBlank cs) ∨
      v.kind = .array ∧ '[' ∈ s ∨ v.kind = .object ∧ '\x7b' ∈ s := by
  revert h
  generalize hstack : [] = stack
  fun_cases readValue stack s with
  | case2 u r hr hs =>
    intro h
    subst hstack
    obtain ⟨hblank, rfl⟩ := goOn_nil_eq_ok_iff.1 h
    obtain ⟨bs, w, rfl, hb, hw⟩ := exists_writesOpening_of_readOpening hs
    cases hw with
    | scalar hw => exact .inl ⟨bs, w, r, rfl, hb, hw, hblank⟩
  | case4 r hr hs hopen r' hr' hclose =>
    intro h
    subst hstack
    obtain ⟨-, rfl⟩ := goOn_nil_eq_ok_iff.1 h
    obtain ⟨bs, w, rfl, -, hw⟩ := exists_writesOpening_of_readOpening hs
    cases hw
    exact .inr (.inl ⟨rfl, by simp⟩)
  | case5 r hr hs hopen c r' hr' hnext hc =>
    intro h
    subst hstack
    obtain ⟨bs, w, rfl, -, hw⟩ := exists_writesOpening_of_readOpening hs
    cases hw
    exact .inr (.inl ⟨kind_of_readValue r h, by simp⟩)
  | case8 r hr hs hopen r' hr' hclose =>
    intro h
    subst hstack
    obtain ⟨-, rfl⟩ := goOn_nil_eq_ok_iff.1 h
    obtain ⟨bs, w, rfl, -, hw⟩ := exists_writesOpening_of_readOpening hs
    cases hw
    exact .inr (.inr ⟨rfl, by simp⟩)
  | case10 r hr hs hopen r' hr' key r'' hr'' hkey hnext hc =>
    intro h
    subst hstack
    obtain ⟨bs, w, rfl, -, hw⟩ := exists_writesOpening_of_readOpening hs
    cases hw
    exact .inr (.inr ⟨kind_of_readValue r'' h, by simp⟩)
  | _ => simp

theorem exists_quoted_of_readValue {text : String} (h : readValue [] s = .ok (.string text)) :
    ∃ bs q cs, s = bs ++ '"' :: (q ++ cs) ∧ AllBlank bs ∧ Takes readQuoted q text ∧
      AllBlank cs := by
  rcases cases_of_readValue h with ⟨bs, w, cs, rfl, hb, hw, hc⟩ | ⟨hkind, -⟩ | ⟨hkind, -⟩
  · cases hw with
    | word hword => rcases value_of_word? hword with hv | ⟨b, hv⟩ <;> cases hv
    | string hq => exact ⟨bs, _, cs, rfl, hb, hq, hc⟩
  · cases hkind
  · cases hkind

theorem WritesScalar.readValue {bs w cs : List Char} {v : Value} (hw : WritesScalar w v)
    (hb : AllBlank bs) (hc : AllBlank cs) : readValue [] (bs ++ (w ++ cs)) = .ok v := by
  obtain ⟨h, e⟩ := (WritesOpening.scalar hw).reads hb fun _ _ => endsNumber_of_allBlank hc
  rw [readValue_scalar e]
  exact goOn_end hc

end JsonEdit.Json
