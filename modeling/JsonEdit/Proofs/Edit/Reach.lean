import JsonEdit.Proofs.Edit.Update
import JsonEdit.Proofs.Path.Grammar

/-!
# Which locations paths can set

* `Location.Writable`: the keys of the location can stand in a path, and every index but a last one
  stands behind a key. A path enters an array only together with the member that holds it.
* `Path.Addresses.set_eq`: a path that addresses a location where something is replaces just that.
* Main statement: the locations of a document that paths can set are the writable ones.
-/

namespace JsonEdit

namespace Value

/-- The places of an array are counted by indices. -/
def LengthFits : Value → Prop
  | .array vs => vs.length < 2 ^ 64
  | _ => True

end Value

namespace Location

/-- Every index but a last one stands behind a key. -/
def IndicesBehindKeys (l : Location) : Prop :=
  ∀ a i s r, l = a ++ .index i :: s :: r → ∃ b k, a = b ++ [.key k]

/-- The location is one that paths can write. -/
structure Writable (l : Location) : Prop where
  names : ∀ k, .key k ∈ l → Path.IsName k.toList
  indices : l.IndicesBehindKeys

variable {l : Location}

theorem indicesBehindKeys_singleton (s : Step) : IndicesBehindKeys [s] := by
  intro a i s' r h
  have := congrArg List.length h
  simp only [List.length_append, List.length_cons, List.length_nil] at this
  omega

theorem IndicesBehindKeys.cons_key (h : l.IndicesBehindKeys) (k : String) :
    IndicesBehindKeys (.key k :: l) := by
  intro a i s r hl
  rcases a with _ | ⟨x, a⟩
  · simp at hl
  · rw [List.cons_append, List.cons.injEq] at hl
    obtain ⟨rfl, hl⟩ := hl
    rcases List.eq_nil_or_concat a with rfl | ⟨a', y, rfl⟩
    · exact ⟨[], k, rfl⟩
    · obtain ⟨b, k', hb⟩ := h _ i s r hl
      exact ⟨.key k :: b, k', congrArg (.key k :: ·) hb⟩

theorem IndicesBehindKeys.cons_element (h : l.IndicesBehindKeys) (k : String) (i : Nat) :
    IndicesBehindKeys (.key k :: .index i :: l) := by
  intro a j s r hl
  rcases a with _ | ⟨x, _ | ⟨y, a⟩⟩
  · simp at hl
  · obtain ⟨rfl, -⟩ := List.cons.inj hl
    exact ⟨[], k, rfl⟩
  · simp only [List.cons_append, List.cons.injEq] at hl
    obtain ⟨rfl, rfl, hl⟩ := hl
    obtain ⟨b, k', rfl⟩ := h a j s r hl
    exact ⟨.key k :: .index i :: b, k', rfl⟩

theorem IndicesBehindKeys.steps_append (h : l.IndicesBehindKeys) (s : Segment) :
    IndicesBehindKeys (s.steps ++ l) := by
  unfold Segment.steps
  split
  · exact h.cons_key _
  · exact h.cons_element _ _

theorem IndicesBehindKeys.flatMap_steps_append (h : l.IndicesBehindKeys) (ss : List Segment) :
    IndicesBehindKeys (ss.flatMap Segment.steps ++ l) := by
  induction ss with
  | nil => exact h
  | cons s ss ih =>
    rw [List.flatMap_cons, List.append_assoc]
    exact ih.steps_append s

theorem IndicesBehindKeys.not_index_cons {i : Nat} {s : Step} :
    ¬ IndicesBehindKeys (.index i :: s :: l) := by
  intro h
  obtain ⟨b, k, hb⟩ := h [] i s l rfl
  simp at hb

theorem IndicesBehindKeys.of_cons_key {s : Step} {k : String}
    (h : IndicesBehindKeys (s :: .key k :: l)) : IndicesBehindKeys (.key k :: l) := by
  intro a i s' r hl
  obtain ⟨b, k', hb⟩ := h (s :: a) i s' r (congrArg (s :: ·) hl)
  rcases List.eq_nil_or_concat a with rfl | ⟨a', y, rfl⟩
  · simp at hl
  · rw [List.concat_eq_append, ← List.cons_append] at hb
    obtain ⟨-, hy⟩ := List.append_inj' hb rfl
    exact ⟨a', k', by rw [List.concat_eq_append, hy]⟩

theorem IndicesBehindKeys.of_cons_index {s : Step} {i : Nat}
    (h : IndicesBehindKeys (s :: .index i :: l)) : l.IndicesBehindKeys := by
  intro a j s' r hl
  obtain ⟨b, k', hb⟩ := h (s :: .index i :: a) j s' r (congrArg (s :: .index i :: ·) hl)
  rcases List.eq_nil_or_concat a with rfl | ⟨a', y, rfl⟩
  · have hb' : [s] ++ [.index i] = b ++ [.key k'] := hb
    obtain ⟨-, hy⟩ := List.append_inj' hb' rfl
    simp at hy
  · rw [List.concat_eq_append, ← List.cons_append, ← List.cons_append] at hb
    obtain ⟨-, hy⟩ := List.append_inj' hb rfl
    exact ⟨a', k', by rw [List.concat_eq_append, hy]⟩

end Location

/-! ## Storing where a path leads -/

theorem Segment.Points.stores {s : Segment} {c d : Value} {m : Location} (h : s.Points c m)
    (hd : c.get? m = some d) (v : Value) : s.Stores v c m (c.put m v) := by
  cases h with
  | @member ms hs =>
    have hk : s.name ∈ Members.keys ms := by
      rw [Value.get?_singleton] at hd
      exact Members.mem_keys_of_find? hd
    have hstores : s.Stores v (.object ms) [.key s.name] (.object (Members.put s.name v ms)) :=
      .member hs
    rwa [Members.put_eq_alter hk] at hstores
  | @element ms vs i hs hm =>
    have hi : i < vs.length := by
      simp only [Value.get?, Value.child?, hm, Option.bind_some, Option.bind_fun_some] at hd
      exact (List.getElem?_eq_some_iff.1 hd).1
    have hstores := Stores.element (v := v) hs hm hi
    rw [Members.put_eq_alter (Members.mem_keys_of_find? hm)] at hstores
    have hput : (Value.object ms).put [.key s.name, .index i] v =
        .object (Members.alter s.name (fun _ => .array (vs.set i v)) ms) := by
      refine congrArg Value.object (Members.alter_congr fun w hw => ?_)
      rw [hm, Option.some.injEq] at hw
      subst hw
      simp [Value.put, Value.alterChild, List.modify_eq_set]
    rwa [hput]
  | @item vs i hs hn =>
    have hi : i < vs.length := by
      rw [Value.get?_singleton] at hd
      exact (List.getElem?_eq_some_iff.1 hd).1
    have hput : (Value.array vs).put [.index i] v = .array (vs.set i v) := by
      simp [Value.put, Value.alterChild, List.modify_eq_set]
    rw [hput]
    exact .item hs hn hi

theorem Path.Addresses.set_eq {p : Path} {t c : Value} {l : Location} (h : p.Addresses t l)
    (hc : t.get? l = some c) (v : Value) : t.set p v = .ok (t.put l v) := by
  obtain ⟨d, m, hd, hm, rfl⟩ := h
  rw [Value.get?_append, hd, Option.bind_some] at hc
  exact set_eq_ok_iff.2 ⟨d, m, _, hd, hm.stores hc v, Value.put_append hd m v⟩

theorem isUpdate_put {t c : Value} {l : Location} (hc : t.get? l = some c) (v : Value) :
    IsUpdate t l v (t.put l v) where
  stored := Value.get?_put v hc
  beside m h h' := Value.get?_put_of_disjoint t v h h'
  around m hm := by
    obtain ⟨d, d', hd, hd', hs⟩ := sameOutline_put hc v hm
    exact ⟨d, d', hd, hd', .inl hs⟩

theorem Value.get?_cons_of_scalar {v : Value} (ho : v.kind ≠ .object) (ha : v.kind ≠ .array)
    (s : Step) (l : Location) : v.get? (s :: l) = none := by
  have hchild : v.child? s = none := by
    cases v with
    | array vs => exact absurd rfl ha
    | object ms => exact absurd rfl ho
    | _ => cases s <;> rfl
  rw [Value.get?, hchild, Option.bind_none]

/-- Where a scalar was stored can be told, if it was not there before. -/
theorem IsUpdate.location_eq {t v t' : Value} {l l' : Location} (ho : v.kind ≠ .object)
    (ha : v.kind ≠ .array) (h : IsUpdate t l v t') (h' : IsUpdate t l' v t')
    (hne : t.get? l ≠ some v) : l = l' := by
  have hdown : ∀ r, v.get? r = some v → r = [] := by
    intro r hr
    rcases r with _ | ⟨s, r⟩
    · rfl
    · rw [Value.get?_cons_of_scalar ho ha] at hr
      simp at hr
  by_cases hl : l <+: l'
  · obtain ⟨r, rfl⟩ := hl
    have hr := h'.stored
    rw [Value.get?_append, h.stored, Option.bind_some] at hr
    rw [hdown r hr, List.append_nil]
  · by_cases hl' : l' <+: l
    · obtain ⟨r, rfl⟩ := hl'
      have hr := h.stored
      rw [Value.get?_append, h'.stored, Option.bind_some] at hr
      rw [hdown r hr, List.append_nil]
    · exact absurd (h.stored ▸ (h'.beside l hl' hl).symm) hne

theorem exists_scalar_ne (c : Value) :
    ∃ v : Value, v.kind ≠ .object ∧ v.kind ≠ .array ∧ v ≠ c := by
  by_cases hc : c = .null
  · exact ⟨.boolean true, by simp [Value.kind], by simp [Value.kind], by simp [hc]⟩
  · exact ⟨.null, by simp [Value.kind], by simp [Value.kind], fun h => hc h.symm⟩

theorem exists_isUpdate_of_set {t t' v : Value} {p : Path} (h : t.set p v = .ok t') :
    ∃ l, p.Addresses t l ∧ IsUpdate t l v t' := by
  obtain ⟨c, m, c', hc, hm, rfl⟩ := set_eq_ok_iff.1 h
  exact ⟨p.base ++ m, ⟨c, m, hc, hm.points, rfl⟩, hm.isUpdate.put hc⟩

theorem Path.addresses_of_set {p : Path} {t c : Value} {l : Location} (hc : t.get? l = some c)
    (h : ∀ v, t.set p v = .ok (t.put l v)) : p.Addresses t l := by
  obtain ⟨v, ho, ha, hne⟩ := exists_scalar_ne c
  obtain ⟨l', hl', hup⟩ := exists_isUpdate_of_set (h v)
  have hget : t.get? l ≠ some v := by
    rw [hc]
    exact fun e => hne (Option.some.inj e).symm
  rwa [(isUpdate_put hc v).location_eq ho ha hup hget]

/-! ## Paths to locations -/

theorem Segment.eq_name_of_mem_steps {s : Segment} {k : String} (h : .key k ∈ s.steps) :
    k = s.name := by
  unfold steps at h
  split at h
  · simpa using h
  · simpa using h

theorem Segment.Points.eq_name_of_mem {s : Segment} {c : Value} {m : Location} {k : String}
    (h : s.Points c m) (hk : .key k ∈ m) : k = s.name := by
  cases h with
  | member hs => simpa using hk
  | element hs hm => simpa using hk
  | item hs hi => simp at hk

theorem Segment.Points.indicesBehindKeys {s : Segment} {c : Value} {m : Location}
    (h : s.Points c m) : m.IndicesBehindKeys := by
  cases h with
  | member hs => exact Location.indicesBehindKeys_singleton _
  | element hs hm => exact (Location.indicesBehindKeys_singleton _).cons_key _
  | item hs hi => exact Location.indicesBehindKeys_singleton _

theorem Path.Addresses.writable {p : Path} {t : Value} {l : Location} (h : p.Addresses t l)
    (hp : ∀ s ∈ p.segments, s.IsWritable) : l.Writable := by
  obtain ⟨c, m, -, hm, rfl⟩ := h
  refine ⟨fun k hk => ?_, hm.indicesBehindKeys.flatMap_steps_append p.leading⟩
  rcases List.mem_append.1 hk with hk | hk
  · obtain ⟨s, hs, hks⟩ := List.mem_flatMap.1 hk
    rw [s.eq_name_of_mem_steps hks]
    exact (hp s (List.mem_append_left _ hs)).name
  · rw [hm.eq_name_of_mem hk]
    exact (hp p.last (by simp [Path.segments])).name

theorem Path.Addresses.cons {t u : Value} {s last : Segment} {leading : List Segment}
    {l : Location} (h : (Path.ofSegments leading last).Addresses u l)
    (hu : t.get? s.steps = some u) :
    (Path.ofSegments (s :: leading) last).Addresses t (s.steps ++ l) := by
  obtain ⟨c, m, hc, hm, rfl⟩ := h
  refine ⟨c, m, ?_, hm, ?_⟩
  · show t.get? ((s :: leading).flatMap Segment.steps) = some c
    rw [List.flatMap_cons, Value.get?_append, hu]
    exact hc
  · show s.steps ++ (leading.flatMap Segment.steps ++ m) = (s :: leading).flatMap Segment.steps ++ m
    rw [List.flatMap_cons, List.append_assoc]

/-- Some path that can be written addresses the location. -/
def Location.IsAddressed (t : Value) (l : Location) : Prop :=
  ∃ leading last, (∀ s ∈ leading, s.IsWritable) ∧ last.IsWritable ∧
    (Path.ofSegments leading last).Addresses t l

namespace Location

variable {t c u : Value} {l : Location}

theorem IsAddressed.cons {s : Segment} (hs : s.IsWritable) (h : IsAddressed u l)
    (hu : t.get? s.steps = some u) : IsAddressed t (s.steps ++ l) := by
  obtain ⟨leading, last, hleading, hlast, h⟩ := h
  exact ⟨s :: leading, last, List.forall_mem_cons.2 ⟨hs, hleading⟩, hlast, h.cons hu⟩

theorem isAddressed_of_points {s : Segment} (hs : s.IsWritable) (h : s.Points t l) :
    IsAddressed t l :=
  ⟨[], s, List.forall_mem_nil _, hs, t, l, rfl, h, rfl⟩

theorem object_of_child? {k : String} (h : t.child? (.key k) = some c) :
    ∃ ms, t = .object ms ∧ Members.find? k ms = some c := by
  cases t with
  | object ms => exact ⟨ms, rfl, h⟩
  | _ => simp [Value.child?] at h

theorem array_of_child? {i : Nat} (h : t.child? (.index i) = some c) :
    ∃ vs, t = .array vs ∧ i < vs.length := by
  cases t with
  | array vs => exact ⟨vs, rfl, (List.getElem?_eq_some_iff.1 h).1⟩
  | _ => simp [Value.child?] at h

theorem isWritable_element {k : String} {i : Nat} (hk : Path.IsName k.toList)
    (hlen : u.LengthFits) (hc : u.child? (.index i) = some c) :
    (Segment.element k i).IsWritable := by
  obtain ⟨vs, rfl, hi⟩ := array_of_child? hc
  refine ⟨hk, fun j hj => ?_⟩
  obtain rfl : i = j := Option.some.inj hj
  exact Nat.lt_trans hi hlen

theorem isAddressed_key {k : String} (hk : Path.IsName k.toList)
    (hc : t.get? [.key k] = some c) : IsAddressed t [.key k] := by
  rw [Value.get?_singleton] at hc
  obtain ⟨ms, rfl, -⟩ := object_of_child? hc
  exact isAddressed_of_points (s := .key k) ⟨hk, by simp [Segment.key]⟩ (.member rfl)

theorem isAddressed_index {i : Nat} (hlen : t.LengthFits) (hc : t.get? [.index i] = some c) :
    IsAddressed t [.index i] := by
  rw [Value.get?_singleton] at hc
  obtain ⟨vs, rfl, hi⟩ := array_of_child? hc
  have hindex := Segment.isIndex_digits (Nat.lt_trans hi hlen)
  have hname : Path.IsName (Decimal.numeral i).toList := by
    rw [Decimal.numeral, String.toList_ofList]
    exact hindex.isName
  refine isAddressed_of_points (s := .key (Decimal.numeral i)) ⟨hname, by simp [Segment.key]⟩ ?_
  refine .item rfl
    ⟨Decimal.digits i, hindex.ne_nil, hindex.digits, .inl ?_, hindex.value, hindex.bound⟩
  exact String.toList_ofList

theorem isAddressed_element {k : String} {i : Nat} (hk : Path.IsName k.toList)
    (hlen : t.Every Value.LengthFits) (hc : t.get? [.key k, .index i] = some c) :
    IsAddressed t [.key k, .index i] := by
  rw [Value.get?, Option.bind_eq_some_iff] at hc
  obtain ⟨u, hu, hc⟩ := hc
  rw [Value.get?_singleton] at hc
  have hs := isWritable_element hk (hlen.child hu).self hc
  obtain ⟨ms, rfl, hm⟩ := object_of_child? hu
  obtain ⟨vs, rfl, -⟩ := array_of_child? hc
  exact isAddressed_of_points hs (.element rfl hm)

/-- The segments of a path to a writable location are read off its steps. -/
theorem Writable.isAddressed : (l : Location) → l.Writable → l ≠ [] → ∀ {t c : Value},
    t.Every Value.LengthFits → t.get? l = some c → IsAddressed t l
  | [], _, hne, _, _, _, _ => absurd rfl hne
  | [.key k], hl, _, _, _, _, hc => isAddressed_key (hl.names k List.mem_cons_self) hc
  | [.index _], _, _, _, _, hlen, hc => isAddressed_index hlen.self hc
  | .index _ :: _ :: _, hl, _, _, _, _, _ => absurd hl.indices IndicesBehindKeys.not_index_cons
  | .key k :: .key k' :: l, hl, _, t, c, hlen, hc => by
    rw [Value.get?, Option.bind_eq_some_iff] at hc
    obtain ⟨u, hu, hc⟩ := hc
    have hrest : Writable (.key k' :: l) :=
      ⟨fun j hj => hl.names j (List.mem_cons_of_mem _ hj), hl.indices.of_cons_key⟩
    have hs : (Segment.key k).IsWritable :=
      ⟨hl.names k List.mem_cons_self, by simp [Segment.key]⟩
    have hsteps : t.get? (Segment.key k).steps = some u := by
      rw [get?_steps_plain rfl]
      exact hu
    exact (isAddressed _ hrest (List.cons_ne_nil _ _) (hlen.child hu) hc).cons hs hsteps
  | [.key k, .index _], hl, _, _, _, hlen, hc =>
    isAddressed_element (hl.names k List.mem_cons_self) hlen hc
  | .key k :: .index i :: s :: l, hl, _, t, c, hlen, hc => by
    rw [Value.get?, Option.bind_eq_some_iff] at hc
    obtain ⟨u, hu, hc⟩ := hc
    rw [Value.get?, Option.bind_eq_some_iff] at hc
    obtain ⟨w, hw, hc⟩ := hc
    have hrest : Writable (s :: l) :=
      ⟨fun j hj => hl.names j (List.mem_cons_of_mem _ (List.mem_cons_of_mem _ hj)),
        hl.indices.of_cons_index⟩
    have hs := isWritable_element (hl.names k List.mem_cons_self) (hlen.child hu).self hw
    have hsteps : t.get? (Segment.element k i).steps = some w := by
      rw [get?_steps_indexed rfl]
      exact Option.bind_eq_some_iff.2 ⟨u, hu, hw⟩
    exact (isAddressed _ hrest (List.cons_ne_nil _ _) ((hlen.child hu).child hw) hc).cons hs hsteps

end Location

/-- Of all locations where something is, some path replaces what is there just if every key can
stand in a path and every index but a last one stands behind a key. -/
theorem exists_path_replacing_iff {t c : Value} {l : Location} (hlen : t.Every Value.LengthFits)
    (hl : l ≠ []) (hc : t.get? l = some c) :
    (∃ text p, readPath text = .ok p ∧ ∀ v, t.set p v = .ok (t.put l v)) ↔ l.Writable := by
  constructor
  · rintro ⟨text, p, hp, hset⟩
    exact (Path.addresses_of_set hc hset).writable
      (Path.isWritable_of_parse (mapError_eq_ok_iff.1 hp))
  · intro h
    obtain ⟨leading, last, hleading, hlast, haddr⟩ := h.isAddressed l hl hlen hc
    exact ⟨_, _, mapError_eq_ok_iff.2 (Path.parse_ofSegments hleading hlast), haddr.set_eq hc⟩

/-- An element of an inner array can be set when a member holds the outer one, and not when the
outer one is the document. -/
theorem exists_path_replacing_inner_element :
    (∃ text p, readPath text = .ok p ∧ ∀ v,
      (Value.object [("a", .array [.array [.null]])]).set p v =
        .ok ((Value.object [("a", .array [.array [.null]])]).put
          [.key "a", .index 0, .index 0] v)) ∧
    ¬ ∃ text p, readPath text = .ok p ∧ ∀ v,
      (Value.array [.array [.null]]).set p v =
        .ok ((Value.array [.array [.null]]).put [.index 0, .index 0] v) := by
  have hnull : Value.null.Every Value.LengthFits :=
    (Value.every_scalar (by simp [Value.kind]) (by simp [Value.kind])).2 trivial
  have harray : (Value.array [.array [.null]]).Every Value.LengthFits := by
    simpa [Value.every_array, Value.LengthFits] using hnull
  have hobject : (Value.object [("a", .array [.array [.null]])]).Every Value.LengthFits :=
    Value.every_object_of_mem trivial (by simpa using harray)
  constructor
  · refine (exists_path_replacing_iff hobject (List.cons_ne_nil _ _) (c := .null) rfl).2 ⟨?_, ?_⟩
    · intro k hk
      obtain rfl : k = "a" := by simpa using hk
      exact ⟨by decide, by simp⟩
    · exact (Location.indicesBehindKeys_singleton _).cons_element "a" 0
  · intro h
    have hwritable :=
      (exists_path_replacing_iff harray (List.cons_ne_nil _ _) (c := .null) rfl).1 h
    exact Location.IndicesBehindKeys.not_index_cons hwritable.indices

end JsonEdit
