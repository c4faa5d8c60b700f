import JsonEdit.Proofs.Edit.Update
import JsonEdit.Proofs.Location.Alter

/-!
# Edits in either order

* `Path.Addresses.exists_place`: an edit that succeeds stores the value at the last step of the
  location that the path addresses, in the container around it.
* `IsUpdate.hosts`: an update beside a location leaves the containers around that location of their
  kind, with a place for all that had one. So a path goes on to address what it addressed.
* Main statement: two edits at locations of which neither is above the other may be made in either
  order. The documents are the same, unless both edits add a key to one object; then the two keys
  come in the order of the edits.
-/

namespace JsonEdit

open Location (Encloses)
open Value (SameOutline)

/-! ## Where an edit stores -/

theorem SpellsIndex.unique {name : String} {i j : Nat} (h : SpellsIndex name i)
    (h' : SpellsIndex name j) : i = j :=
  Option.some.inj ((nameIndex?_eq_some_iff.2 h).symm.trans (nameIndex?_eq_some_iff.2 h'))

theorem Segment.Points.unique {s : Segment} {c : Value} {m m' : Location} (h : s.Points c m)
    (h' : s.Points c m') : m = m' := by
  cases h with
  | member hs =>
    cases h' with
    | member hs' => rfl
    | element hs' hm' => simp [hs] at hs'
  | element hs hm =>
    cases h' with
    | member hs' => simp [hs] at hs'
    | element hs' hm' =>
      obtain rfl := Option.some.inj (hs.symm.trans hs')
      rfl
  | item hs hi =>
    cases h' with
    | item hs' hi' => rw [hi.unique hi']

theorem Path.Addresses.unique {p : Path} {t : Value} {l l' : Location} (h : p.Addresses t l)
    (h' : p.Addresses t l') : l = l' := by
  obtain ⟨c, m, hc, hm, rfl⟩ := h
  obtain ⟨c', m', hc', hm', rfl⟩ := h'
  obtain rfl := Option.some.inj (hc.symm.trans hc')
  rw [hm.unique hm']

theorem Segment.Points.exists_place {s : Segment} {c : Value} {m : Location} (h : s.Points c m) :
    ∃ r x d, m = r ++ [x] ∧ c.get? r = some d ∧
      ∀ v c', s.Stores v c m c' ↔ d.HasPlace x ∧ c' = c.put r (d.store x v) := by
  cases h with
  | @member ms hs =>
    refine ⟨[], .key s.name, .object ms, rfl, rfl, fun v c' => ⟨fun h => ?_, ?_⟩⟩
    · cases h
      exact ⟨trivial, rfl⟩
    · rintro ⟨-, rfl⟩
      exact .member hs
  | @element ms vs i hs hm =>
    have hput := Value.put_key (Members.mem_keys_of_find? hm)
    refine ⟨[.key s.name], .index i, .array vs, rfl, ?_, fun v c' => ⟨fun h => ?_, ?_⟩⟩
    · rw [Value.get?_singleton]
      exact hm
    · cases h with
      | element hs' hm' hi =>
        obtain rfl := Value.array.inj (Option.some.inj (hm.symm.trans hm'))
        exact ⟨hi, (hput _).symm⟩
    · rintro ⟨hi, rfl⟩
      rw [hput]
      exact .element hs hm hi
  | @item vs i hs hn =>
    refine ⟨[], .index i, .array vs, rfl, rfl, fun v c' => ⟨fun h => ?_, ?_⟩⟩
    · cases h with
      | item hs' hn' hi => exact ⟨hi, rfl⟩
    · rintro ⟨hi, rfl⟩
      exact .item hs hn hi

/-- Setting the end of a path is storing at the last step of the location that it addresses. -/
theorem Path.Addresses.exists_place {p : Path} {t : Value} {l : Location} (h : p.Addresses t l) :
    ∃ b s c, l = b ++ [s] ∧ t.get? b = some c ∧
      ∀ v t', t.set p v = .ok t' ↔ c.HasPlace s ∧ t' = t.alter (·.store s v) b := by
  obtain ⟨c, m, hc, hm, rfl⟩ := h
  obtain ⟨r, x, d, rfl, hd, hstores⟩ := hm.exists_place
  have hget : t.get? (p.base ++ r) = some d := by
    rw [Value.get?_append, hc]
    exact hd
  have hput : ∀ v, t.put p.base (c.put r (d.store x v)) = t.alter (·.store x v) (p.base ++ r) := by
    intro v
    rw [← Value.put_append hc]
    exact Value.put_eq_alter (f := fun e => e.store x v) hget
  refine ⟨p.base ++ r, x, d, (List.append_assoc ..).symm, hget, fun v t' => ?_⟩
  rw [set_eq_ok_iff]
  constructor
  · rintro ⟨c', m, e, hc', hs, rfl⟩
    obtain rfl := Option.some.inj (hc.symm.trans hc')
    obtain rfl := hm.unique hs.points
    obtain ⟨hx, rfl⟩ := (hstores v e).1 hs
    exact ⟨hx, hput v⟩
  · rintro ⟨hx, rfl⟩
    exact ⟨c, _, _, hc, (hstores v _).2 ⟨hx, rfl⟩, (hput v).symm⟩

/-! ## Beside an update -/

namespace Value

/-- `d` is of the kind of `c` and has a place at every step where `c` has one. -/
def Hosts (c d : Value) : Prop :=
  d.kind = c.kind ∧ ∀ s, c.HasPlace s → d.HasPlace s

theorem Hosts.refl (c : Value) : c.Hosts c :=
  ⟨rfl, fun _ h => h⟩

theorem SameOutline.hosts {c d : Value} (h : SameOutline c d) : c.Hosts d := by
  cases h with
  | array hlen =>
    refine ⟨rfl, fun s hs => ?_⟩
    cases s with
    | key k => exact hs
    | index i =>
      show i < _
      rw [← hlen]
      exact hs
  | object hkeys =>
    refine ⟨rfl, fun s hs => ?_⟩
    cases s with
    | key k => trivial
    | index i => exact hs

end Value

theorem GainsKey.hosts {m l : Location} {c d : Value} (h : GainsKey m l c d) : c.Hosts d := by
  cases h with
  | last hl hk hkeys =>
    refine ⟨rfl, fun s hs => ?_⟩
    cases s with
    | key k => trivial
    | index i => exact hs

/-- An update leaves the containers around a location beside it ready for what they could hold. -/
theorem IsUpdate.hosts {t v t' c : Value} {l m n : Location} (h : IsUpdate t l v t')
    (hl : ¬ l <+: m) (hn : Encloses n m) (hc : t.get? n = some c) :
    ∃ d, t'.get? n = some d ∧ c.Hosts d := by
  have hnm : n <+: m := by
    obtain ⟨s, r, rfl⟩ := hn
    exact List.prefix_append n _
  have hln : ¬ l <+: n := fun e => hl (e.trans hnm)
  by_cases hnl : n <+: l
  · obtain ⟨r, hr⟩ := hnl
    cases r with
    | nil =>
      rw [List.append_nil] at hr
      exact absurd (hr ▸ List.prefix_refl _) hln
    | cons s r =>
      obtain ⟨c', d, hc', hd, hout⟩ := h.around n ⟨s, r, hr.symm⟩
      obtain rfl := Option.some.inj (hc.symm.trans hc')
      rcases hout with hs | hg
      · exact ⟨d, hd, hs.hosts⟩
      · exact ⟨d, hd, hg.hosts⟩
  · exact ⟨c, (h.beside n hln hnl).trans hc, .refl c⟩

/-- What a path stands for hangs on the kinds of the containers on the way. -/
theorem Path.Addresses.of_hosts {p : Path} {t t' : Value} {l : Location} (h : p.Addresses t l)
    (hosts : ∀ n c, Encloses n l → t.get? n = some c → ∃ d, t'.get? n = some d ∧ c.Hosts d) :
    p.Addresses t' l := by
  obtain ⟨c, m, hc, hm, rfl⟩ := h
  cases hm with
  | @member ms hs =>
    obtain ⟨d, hd, hkind, -⟩ := hosts p.base _ ⟨_, [], rfl⟩ hc
    obtain ⟨ns, rfl⟩ := Value.kind_eq_object_iff.1 hkind
    exact ⟨_, _, hd, .member hs, rfl⟩
  | @element ms vs i hs hfind =>
    obtain ⟨d, hd, hkind, -⟩ := hosts p.base _ ⟨_, [.index i], rfl⟩ hc
    obtain ⟨ns, rfl⟩ := Value.kind_eq_object_iff.1 hkind
    have hc' : t.get? (p.base ++ [.key p.last.name]) = some (.array vs) := by
      rw [Value.get?_append, hc, Option.bind_some, Value.get?_singleton]
      exact hfind
    obtain ⟨e, he, hkind', -⟩ := hosts _ _ ⟨.index i, [], by simp⟩ hc'
    obtain ⟨ws, rfl⟩ := Value.kind_eq_array_iff.1 hkind'
    rw [Value.get?_append, hd, Option.bind_some, Value.get?_singleton] at he
    exact ⟨_, _, hd, .element hs he, rfl⟩
  | @item vs i hs hn =>
    obtain ⟨d, hd, hkind, -⟩ := hosts p.base _ ⟨_, [], rfl⟩ hc
    obtain ⟨ws, rfl⟩ := Value.kind_eq_array_iff.1 hkind
    exact ⟨_, _, hd, .item hs hn, rfl⟩

/-! ## Two edits -/

theorem isUpdate_alter_store {t c : Value} {b : Location} {s : Step} (hc : t.get? b = some c)
    (hs : c.HasPlace s) (v : Value) : IsUpdate t (b ++ [s]) v (t.alter (·.store s v) b) := by
  rw [← Value.put_eq_alter (f := fun e => e.store s v) hc]
  refine IsUpdate.put hc ?_
  cases c with
  | array vs =>
    cases s with
    | key k => exact hs.elim
    | index i => exact isUpdate_item hs v
  | object ms =>
    cases s with
    | key k => exact isUpdate_member ms k v
    | index i => exact hs.elim
  | _ => exact hs.elim

/-- An edit that succeeds may also be made behind an edit beside it. -/
theorem exists_set_of_beside {t t' c v w : Value} {q : Path} {b d : Location} {s x : Step}
    (hc : t.get? b = some c) (hs : c.HasPlace s) (hq : t.set q w = .ok t')
    (hm : q.Addresses t (d ++ [x])) (hlm : ¬ b ++ [s] <+: d ++ [x]) :
    (t.alter (·.store s v) b).set q w =
      .ok ((t.alter (·.store s v) b).alter (·.store x w) d) := by
  have hup := isUpdate_alter_store hc hs v
  have hm' := hm.of_hosts fun n e hn he => hup.hosts hlm hn he
  obtain ⟨d₁, x₁, e, heq, he, hset⟩ := hm.exists_place
  obtain ⟨rfl, hx⟩ := List.append_inj' heq rfl
  obtain rfl : x = x₁ := by simpa using hx
  obtain ⟨hplace, -⟩ := (hset w t').1 hq
  obtain ⟨d₂, x₂, e', heq', he', hset'⟩ := hm'.exists_place
  obtain ⟨rfl, hx'⟩ := List.append_inj' heq' rfl
  obtain rfl : x = x₂ := by simpa using hx'
  obtain ⟨f, hf, -, hosts⟩ := hup.hosts hlm ⟨x, [], rfl⟩ he
  obtain rfl := Option.some.inj (he'.symm.trans hf)
  exact (hset' w _).2 ⟨hosts x hplace, rfl⟩

/-- The object `ms` at `b` has neither of the keys `k` and `k'` that `l` and `m` end with. -/
structure AddsBoth (t : Value) (l m b : Location) (ms : List (String × Value)) (k k' : String) :
    Prop where
  container : t.get? b = some (.object ms)
  first : l = b ++ [.key k]
  second : m = b ++ [.key k']
  firstNew : k ∉ Members.keys ms
  secondNew : k' ∉ Members.keys ms

theorem alter_store_store {t : Value} {b : Location} {ms : List (String × Value)} {k k' : String}
    (hc : t.get? b = some (.object ms)) (hk : k ∉ Members.keys ms) (hk' : k' ∉ Members.keys ms)
    (hne : k ≠ k') (v w : Value) :
    (t.alter (·.store (.key k) v) b).alter (·.store (.key k') w) b =
      t.put b (.object (ms ++ [(k, v), (k', w)])) := by
  have hkeys : k' ∉ Members.keys (ms ++ [(k, v)]) := by
    intro hmem
    rw [Members.keys, List.map_append, List.mem_append] at hmem
    rcases hmem with hmem | hmem
    · exact hk' hmem
    · exact hne (List.mem_singleton.1 hmem).symm
  have hfirst : (Value.object ms).store (.key k) v = .object (ms ++ [(k, v)]) :=
    congrArg Value.object (Members.put_of_not_mem hk)
  have hsecond : (Value.object (ms ++ [(k, v)])).store (.key k') w =
      .object (ms ++ [(k, v), (k', w)]) := by
    simp only [Value.store, Members.put_of_not_mem hkeys, List.append_assoc, List.cons_append,
      List.nil_append]
  have hget := Value.get?_put (Value.object (ms ++ [(k, v)])) hc
  rw [← Value.put_eq_alter (f := fun e => e.store (.key k) v) hc, hfirst,
    ← Value.put_eq_alter (f := fun e => e.store (.key k') w) hget, hsecond, Value.put_put]

/-- Two edits that both succeed, at locations of which neither is the other or above it, succeed
behind each other as well. Both orders give the same document, unless both edits add a key to one
object; then the documents differ in the order of these two last members and in nothing else. -/
theorem set_comm_unless_addsBoth {t t₁ t₂ v w : Value} {p q : Path} {l m : Location}
    (hp : t.set p v = .ok t₁) (hq : t.set q w = .ok t₂) (hl : p.Addresses t l)
    (hm : q.Addresses t m) (hlm : ¬ l <+: m) (hml : ¬ m <+: l) :
    ∃ u₁ u₂, t₁.set q w = .ok u₁ ∧ t₂.set p v = .ok u₂ ∧
      ((¬ ∃ b ms k k', AddsBoth t l m b ms k k') → u₁ = u₂) ∧
      ∀ b ms k k', AddsBoth t l m b ms k k' → k ≠ k' ∧
        u₁ = t.put b (.object (ms ++ [(k, v), (k', w)])) ∧
        u₂ = t.put b (.object (ms ++ [(k', w), (k, v)])) := by
  obtain ⟨b, s, c, rfl, hc, hset⟩ := hl.exists_place
  obtain ⟨d, x, e, rfl, he, hset'⟩ := hm.exists_place
  obtain ⟨hs, rfl⟩ := (hset v t₁).1 hp
  obtain ⟨hx, rfl⟩ := (hset' w t₂).1 hq
  refine ⟨_, _, exists_set_of_beside hc hs hq hm hlm, exists_set_of_beside he hx hp hl hml,
    fun hnone => ?_, fun b' ms k k' hadds => ?_⟩
  · apply Value.alter_store_comm hlm hml
    rintro ⟨rfl, f, hf, ms, k, k', rfl, rfl, rfl, hk, hk'⟩
    exact hnone ⟨b, ms, k, k', hf, rfl, rfl, hk, hk'⟩
  · obtain ⟨hcontainer, hfirst, hsecond, hk, hk'⟩ := hadds
    have hne : k ≠ k' := by
      rintro rfl
      exact hlm ((hfirst.trans hsecond.symm) ▸ List.prefix_refl _)
    obtain ⟨rfl, hs⟩ := List.append_inj' hfirst rfl
    obtain rfl : s = .key k := by simpa using hs
    obtain ⟨rfl, hx⟩ := List.append_inj' hsecond rfl
    obtain rfl : x = .key k' := by simpa using hx
    exact ⟨hne, alter_store_store hcontainer hk hk' hne v w,
      alter_store_store hcontainer hk' hk hne.symm w v⟩

theorem set_comm_elements :
    ∃ u, (Value.object [("xs", .array [.boolean true, .null])]).set
        ⟨"xs[0]", [], .element "xs" 0⟩ (.string "a") =
          .ok (.object [("xs", .array [.string "a", .null])]) ∧
      (Value.object [("xs", .array [.boolean true, .null])]).set
        ⟨"xs.1", [.key "xs"], .key "1"⟩ (.string "b") =
          .ok (.object [("xs", .array [.boolean true, .string "b"])]) ∧
      (Value.object [("xs", .array [.boolean true, .string "b"])]).set
        ⟨"xs[0]", [], .element "xs" 0⟩ (.string "a") = .ok u ∧
      (Value.object [("xs", .array [.string "a", .null])]).set
        ⟨"xs.1", [.key "xs"], .key "1"⟩ (.string "b") = .ok u := by
  have hp : (Value.object [("xs", .array [.boolean true, .null])]).set
      ⟨"xs[0]", [], .element "xs" 0⟩ (.string "a") =
        .ok (.object [("xs", .array [.string "a", .null])]) := by rfl
  have hq : (Value.object [("xs", .array [.boolean true, .null])]).set
      ⟨"xs.1", [.key "xs"], .key "1"⟩ (.string "b") =
        .ok (.object [("xs", .array [.boolean true, .string "b"])]) := by rfl
  have hl : Path.Addresses ⟨"xs[0]", [], .element "xs" 0⟩
      (.object [("xs", .array [.boolean true, .null])]) [.key "xs", .index 0] :=
    ⟨_, [.key "xs", .index 0], rfl, .element rfl rfl, rfl⟩
  have hm : Path.Addresses ⟨"xs.1", [.key "xs"], .key "1"⟩
      (.object [("xs", .array [.boolean true, .null])]) [.key "xs", .index 1] :=
    ⟨_, [.index 1], rfl, .item rfl (nameIndex?_eq_some_iff.1 rfl), rfl⟩
  obtain ⟨u₁, u₂, h₁, h₂, heq, -⟩ :=
    set_comm_unless_addsBoth hp hq hl hm (by decide) (by decide)
  obtain rfl := heq (by
    rintro ⟨b, ms, k, k', -, hfirst, -⟩
    simpa using congrArg List.getLast? hfirst)
  exact ⟨u₁, hp, hq, h₂, h₁⟩

end JsonEdit
