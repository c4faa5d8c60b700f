import JsonEdit.Proofs.Edit.Commute
import JsonEdit.Proofs.Edit.Reach

/-!
# Several paths to one location

* An element of an array can be named at the end of a path in several ways: in brackets, or by a
  plain name that spells its index. `Path.normalized` settles on one of them; all other segments are
  left as they are.
* `Location.segments` writes a location as segments. Where a path addresses a location, its
  normalized segments are those of the location (`Path.Addresses.normalized_eq`), and in one
  document two locations with the same segments are one (`Location.eq_of_segments_eq`): a first step
  is to a member or to an element, and the document decides which.
* Main statement: two paths that can be set address one location just when their normalized segments
  are equal, and just then they always make the same edit.
-/

namespace JsonEdit

/-! ## Normalized paths -/

/-- The element `i` of the array that the segments lead to: in brackets behind a plain name,
otherwise as a name of its own in digits. -/
def Segment.withItem (ss : List Segment) (i : Nat) : List Segment :=
  match ss.getLast? with
  | some ⟨name, none⟩ => ss.dropLast ++ [.element name i]
  | _ => ss ++ [.key (Decimal.numeral i)]

/-- The segments of a path in a document. Where a last plain name stands for an element of an array,
the element is written with its index. -/
def Path.normalized (t : Value) (p : Path) : List Segment :=
  match t.get? p.base, p.last.index, nameIndex? p.last.name with
  | some (.array _), none, some i => Segment.withItem p.leading i
  | _, _, _ => p.segments

namespace Location

/-- The segments that write a location: an index goes with the key before it, if there is one. -/
def segments : Location → List Segment
  | [] => []
  | .key k :: .index i :: l => .element k i :: segments l
  | .key k :: l => .key k :: segments l
  | .index i :: l => .key (Decimal.numeral i) :: segments l

variable {l m : Location} {s : Segment} {ss : List Segment} {i : Nat}

def StartsWithKey (l : Location) : Prop :=
  ∃ k r, l = .key k :: r

theorem startsWithKey_steps_append (s : Segment) (l : Location) : StartsWithKey (s.steps ++ l) := by
  unfold Segment.steps
  split
  · exact ⟨_, _, rfl⟩
  · exact ⟨_, _, rfl⟩

theorem StartsWithKey.flatMap_steps_append (hl : l.StartsWithKey) (ss : List Segment) :
    StartsWithKey (ss.flatMap Segment.steps ++ l) := by
  cases ss with
  | nil => exact hl
  | cons s ss =>
    rw [List.flatMap_cons, List.append_assoc]
    exact startsWithKey_steps_append s _

theorem segments_key_cons (hl : ∀ i r, l ≠ .index i :: r) (k : String) :
    segments (.key k :: l) = .key k :: segments l := by
  rcases l with _ | ⟨k' | i, l⟩
  · rfl
  · rw [segments]
    simp
  · exact absurd rfl (hl i l)

theorem index_cons_or_not (l : Location) :
    (∃ i r, l = .index i :: r) ∨ ∀ i r, l ≠ .index i :: r := by
  rcases l with _ | ⟨k | i, l⟩
  · exact .inr nofun
  · exact .inr (by simp)
  · exact .inl ⟨i, l, rfl⟩

theorem eq_nil_of_segments (h : l.segments = []) : l = [] := by
  rcases l with _ | ⟨k | i, l⟩
  · rfl
  · rcases index_cons_or_not l with ⟨i, l, rfl⟩ | hne
    · simp [segments] at h
    · simp [segments_key_cons hne] at h
  · simp [segments] at h

/-- A segment is read off its steps, unless an index behind them could belong to it. -/
theorem segments_steps_append (hl : l.StartsWithKey) :
    segments (s.steps ++ l) = s :: segments l := by
  obtain ⟨name, index⟩ := s
  obtain ⟨k, r, rfl⟩ := hl
  cases index with
  | none => simp [Segment.steps, segments, Segment.key]
  | some i => simp [Segment.steps, segments, Segment.element]

theorem segments_flatMap_steps_append (hl : l.StartsWithKey) (ss : List Segment) :
    segments (ss.flatMap Segment.steps ++ l) = ss ++ segments l := by
  induction ss with
  | nil => rfl
  | cons s ss ih =>
    rw [List.flatMap_cons, List.append_assoc,
      segments_steps_append (hl.flatMap_steps_append ss), ih, List.cons_append]

theorem segments_steps (s : Segment) : segments s.steps = [s] := by
  obtain ⟨name, index⟩ := s
  cases index with
  | none => rfl
  | some i => rfl

theorem segments_concat_index (ss : List Segment) (i : Nat) :
    segments (ss.flatMap Segment.steps ++ [.index i]) = Segment.withItem ss i := by
  rcases List.eq_nil_or_concat ss with rfl | ⟨ss, s, rfl⟩
  · rfl
  · rw [List.concat_eq_append, List.flatMap_append, List.append_assoc, List.flatMap_singleton,
      segments_flatMap_steps_append (startsWithKey_steps_append s _)]
    obtain ⟨name, index⟩ := s
    cases index with
    | none => simp [Segment.withItem, Segment.steps, segments]
    | some j => simp [Segment.withItem, Segment.steps, segments, Segment.element, Segment.key]

end Location

theorem Path.Addresses.normalized_eq {p : Path} {t : Value} {l : Location} (h : p.Addresses t l) :
    p.normalized t = l.segments := by
  obtain ⟨c, m, hc, hm, rfl⟩ := h
  have hsteps : p.normalized t = p.segments → m = p.last.steps →
      p.normalized t = Location.segments (p.base ++ m) := by
    rintro h rfl
    have hkey : p.last.steps.StartsWithKey := by
      simpa using Location.startsWithKey_steps_append p.last []
    rw [h, Path.base, Location.segments_flatMap_steps_append hkey, Location.segments_steps,
      Path.segments]
  cases hm with
  | member hs =>
    apply hsteps
    · simp only [Path.normalized, hc]
    · simp only [Segment.steps, hs]
  | element hs hm =>
    apply hsteps
    · simp only [Path.normalized, hc]
    · simp only [Segment.steps, hs]
  | @item vs i hs hi =>
    have hindex : nameIndex? p.last.name = some i := nameIndex?_eq_some_iff.2 hi
    rw [Path.base, Location.segments_concat_index]
    simp only [Path.normalized, hc, hs, hindex]

/-! ## Locations of one document -/

/-- The kind of value that a step goes into. -/
def Step.kind : Step → Kind
  | .key _ => .object
  | .index _ => .array

theorem Value.kind_of_child? {v c : Value} {s : Step} (h : v.child? s = some c) :
    v.kind = s.kind := by
  cases v with
  | array vs =>
    cases s with
    | key k => cases h
    | index i => rfl
  | object ms =>
    cases s with
    | key k => rfl
    | index i => cases h
  | _ => cases s <;> cases h

namespace Location

/-- Every step of the location meets a container of its kind, the first one in `v`. What the last
step leads to need not be there. -/
def Meets : Location → Option Value → Prop
  | [], _ => True
  | s :: l, v => ∃ c, v = some c ∧ c.kind = s.kind ∧ Meets l (c.child? s)

variable {l m : Location} {v : Option Value} {t c : Value} {s s' : Step}

theorem Meets.append (hc : t.get? l = some c) (hm : m.Meets (some c)) :
    Meets (l ++ m) (some t) := by
  induction l generalizing t with
  | nil =>
    obtain rfl : t = c := Option.some.inj hc
    exact hm
  | cons s l ih =>
    rw [Value.get?, Option.bind_eq_some_iff] at hc
    obtain ⟨d, hd, hc⟩ := hc
    refine ⟨t, rfl, Value.kind_of_child? hd, ?_⟩
    rw [hd]
    exact ih hc

theorem Meets.kind_eq (hl : Meets (s :: l) v) (hm : Meets (s' :: m) v) : s.kind = s'.kind := by
  obtain ⟨c, rfl, hs, -⟩ := hl
  obtain ⟨d, hd, hs', -⟩ := hm
  obtain rfl := Option.some.inj hd
  exact hs.symm.trans hs'

theorem Meets.tails (hl : Meets (s :: l) v) (hm : Meets (s :: m) v) :
    ∃ d, l.Meets d ∧ m.Meets d := by
  obtain ⟨c, rfl, -, hl⟩ := hl
  obtain ⟨d, hd, -, hm⟩ := hm
  obtain rfl := Option.some.inj hd
  exact ⟨_, hl, hm⟩

theorem numeral_injective {i j : Nat} (h : Decimal.numeral i = Decimal.numeral j) : i = j := by
  have hdigits : Decimal.digits i = Decimal.digits j := by
    simpa [Decimal.numeral] using congrArg String.toList h
  rw [← Decimal.value_digits i, hdigits, Decimal.value_digits]

theorem eq_of_segments_eq (hl : l.Meets v) (hm : m.Meets v) (h : l.segments = m.segments) :
    l = m := by
  fun_induction segments l generalizing m v with
  | case1 => exact (eq_nil_of_segments h.symm).symm
  | case2 k i l ih =>
    rcases m with _ | ⟨k' | j, m⟩
    · simp [segments] at h
    · rcases index_cons_or_not m with ⟨j, m, rfl⟩ | hne
      · simp only [segments, Segment.element, List.cons.injEq, Segment.mk.injEq,
          Option.some.injEq] at h
        obtain ⟨⟨rfl, rfl⟩, h⟩ := h
        obtain ⟨c, hl, hm⟩ := hl.tails hm
        obtain ⟨d, hl, hm⟩ := hl.tails hm
        rw [ih hl hm h]
      · simp [segments_key_cons hne, Segment.key, Segment.element] at h
    · cases hl.kind_eq hm
  | case3 k l hne ih =>
    rcases m with _ | ⟨k' | j, m⟩
    · simp [segments] at h
    · rcases index_cons_or_not m with ⟨j, m, rfl⟩ | hne
      · simp [segments, Segment.key, Segment.element] at h
      · simp only [segments_key_cons hne, Segment.key, List.cons.injEq, Segment.mk.injEq] at h
        obtain ⟨⟨rfl, -⟩, h⟩ := h
        obtain ⟨c, hl, hm⟩ := hl.tails hm
        rw [ih hl hm h]
    · cases hl.kind_eq hm
  | case4 i l ih =>
    rcases m with _ | ⟨k | j, m⟩
    · simp [segments] at h
    · cases hl.kind_eq hm
    · simp only [segments, Segment.key, List.cons.injEq, Segment.mk.injEq] at h
      obtain ⟨⟨hnumeral, -⟩, h⟩ := h
      obtain rfl := numeral_injective hnumeral
      obtain ⟨c, hl, hm⟩ := hl.tails hm
      rw [ih hl hm h]

end Location

theorem Segment.Points.meets {s : Segment} {c : Value} {m : Location} (h : s.Points c m) :
    m.Meets (some c) := by
  cases h with
  | member hs => exact ⟨_, rfl, rfl, trivial⟩
  | element hs hm => exact ⟨_, rfl, rfl, _, hm, rfl, trivial⟩
  | item hs hi => exact ⟨_, rfl, rfl, trivial⟩

theorem Path.Addresses.meets {p : Path} {t : Value} {l : Location} (h : p.Addresses t l) :
    l.Meets (some t) := by
  obtain ⟨c, m, hc, hm, rfl⟩ := h
  exact hm.meets.append hc

/-! ## Edits at one location -/

section

variable {t t' v : Value} {p q : Path} {l m : Location}

theorem Path.Addresses.set_congr (hp : p.Addresses t l) (hq : q.Addresses t l)
    (h : t.set p v = .ok t') (w : Value) : ∃ u, t.set p w = .ok u ∧ t.set q w = .ok u := by
  obtain ⟨b, s, c, rfl, hc, hset⟩ := hp.exists_place
  obtain ⟨b', s', c', hl, hc', hset'⟩ := hq.exists_place
  obtain ⟨rfl, hs⟩ := List.append_inj' hl rfl
  obtain rfl : s = s' := by simpa using hs
  obtain rfl := Option.some.inj (hc.symm.trans hc')
  obtain ⟨hplace, -⟩ := (hset v t').1 h
  exact ⟨_, (hset w _).2 ⟨hplace, rfl⟩, (hset' w _).2 ⟨hplace, rfl⟩⟩

/-- Where a path stores can be told from what it does with a scalar that is not there yet. -/
theorem eq_of_set_congr (hl : p.Addresses t l) (hm : q.Addresses t m) (h : t.set p v = .ok t')
    (hset : ∀ w, t.set p w = t.set q w) : l = m := by
  obtain ⟨w, ho, ha, hne⟩ := exists_scalar_ne ((t.get? l).getD .null)
  obtain ⟨u, hu, -⟩ := hl.set_congr hl h w
  obtain ⟨l', hl', hup⟩ := exists_isUpdate_of_set hu
  obtain ⟨m', hm', hup'⟩ := exists_isUpdate_of_set ((hset w).symm.trans hu)
  obtain rfl := hl.unique hl'
  obtain rfl := hm.unique hm'
  apply hup.location_eq ho ha hup'
  intro hw
  simp [hw] at hne

end

/-- Two paths that can be set in a document address one location just when their segments are equal
once a last plain name that stands for an element of an array is written with its index. The paths
then set every value alike, and no other two paths do. -/
theorem addresses_same_iff_normalized_eq {t t₁ t₂ v w : Value} {p q : Path}
    (hp : t.set p v = .ok t₁) (hq : t.set q w = .ok t₂) :
    ((∃ l, p.Addresses t l ∧ q.Addresses t l) ↔ p.normalized t = q.normalized t) ∧
    ((∀ x, t.set p x = t.set q x) ↔ p.normalized t = q.normalized t) := by
  obtain ⟨l, hl, -⟩ := exists_isUpdate_of_set hp
  obtain ⟨m, hm, -⟩ := exists_isUpdate_of_set hq
  have hsame : l = m ↔ p.normalized t = q.normalized t := by
    rw [hl.normalized_eq, hm.normalized_eq]
    constructor
    · rintro rfl
      rfl
    · intro h
      exact Location.eq_of_segments_eq hl.meets hm.meets h
  rw [← hsame]
  constructor
  · constructor
    · rintro ⟨n, hn, hn'⟩
      exact (hl.unique hn).trans (hn'.unique hm)
    · rintro rfl
      exact ⟨l, hl, hm⟩
  · constructor
    · intro h
      exact eq_of_set_congr hl hm hp h
    · rintro rfl x
      obtain ⟨u, hu, hu'⟩ := hl.set_congr hm hp x
      exact hu.trans hu'.symm

theorem addresses_same_second_element :
    (∃ p q, readPath "xs[1]" = .ok p ∧ readPath "xs.+01" = .ok q ∧
      (∃ l, p.Addresses (.object [("xs", .array [.null, .null])]) l ∧
        q.Addresses (.object [("xs", .array [.null, .null])]) l) ∧
      ∀ x, (Value.object [("xs", .array [.null, .null])]).set p x =
        (Value.object [("xs", .array [.null, .null])]).set q x) := by
  have hp : readPath "xs[1]" = .ok ⟨"xs[1]", [], .element "xs" 1⟩ := rfl
  have hq : readPath "xs.+01" = .ok ⟨"xs.+01", [.key "xs"], .key "+01"⟩ := rfl
  have hset : (Value.object [("xs", .array [.null, .null])]).set ⟨"xs[1]", [], .element "xs" 1⟩
      .null = .ok (.object [("xs", .array [.null, .null])]) := rfl
  have hset' : (Value.object [("xs", .array [.null, .null])]).set
      ⟨"xs.+01", [.key "xs"], .key "+01"⟩ .null = .ok (.object [("xs", .array [.null, .null])]) :=
    rfl
  obtain ⟨hsame, hedits⟩ := addresses_same_iff_normalized_eq hset hset'
  exact ⟨_, _, hp, hq, hsame.2 rfl, hedits.2 rfl⟩

end JsonEdit
