import JsonEdit.Proofs.Edit.Address

/-!
# What an edit changes

* `IsUpdate t l v t'`: the document `t'` is `t` with `v` at `l`. Everything beside `l` is the same,
  and the containers around `l` keep their keys in order and their lengths, except that a key which
  was not there comes last.
* `IsUpdate.unique`: nothing else is left open, so this is a full account of an edit.
* Main statement: an edit that succeeds is such an update at the location which the path addresses,
  and this is the document that editing a text prints.
-/

namespace JsonEdit

open Location (Encloses)
open Value (SameOutline)

/-- `c` and `c'`, at `m`, are an object before and after it gains the key that `l` ends with. -/
inductive GainsKey (m l : Location) : Value → Value → Prop where
  | last {ms ms' : List (String × Value)} {k : String} (hl : l = m ++ [.key k])
    (hk : k ∉ Members.keys ms) (hkeys : Members.keys ms' = Members.keys ms ++ [k]) :
    GainsKey m l (.object ms) (.object ms')

/-- `t'` is `t` with `v` at `l` and no other change. -/
structure IsUpdate (t : Value) (l : Location) (v t' : Value) : Prop where
  stored : t'.get? l = some v
  beside : ∀ m, ¬ l <+: m → ¬ m <+: l → t'.get? m = t.get? m
  around : ∀ m, Encloses m l → ∃ c c', t.get? m = some c ∧ t'.get? m = some c' ∧
    (SameOutline c c' ∨ GainsKey m l c c')

/-! ## One step -/

theorem encloses_singleton {m : Location} {s : Step} (h : Encloses m [s]) : m = [] := by
  obtain ⟨s', r, h⟩ := h
  cases m with
  | nil => rfl
  | cons a m => simp at h

theorem cons_of_beside {m : Location} {s : Step} (h : ¬ [s] <+: m) (h' : ¬ m <+: [s]) :
    ∃ s' r, m = s' :: r ∧ s' ≠ s := by
  cases m with
  | nil => exact absurd List.nil_prefix h'
  | cons s' r =>
    refine ⟨s', r, rfl, ?_⟩
    rintro rfl
    exact h ⟨r, rfl⟩

theorem isUpdate_member (ms : List (String × Value)) (k : String) (v : Value) :
    IsUpdate (.object ms) [.key k] v (.object (Members.put k v ms)) where
  stored := by simp [Value.get?, Value.child?, Members.find?_put]
  beside m h h' := by
    obtain ⟨s, r, rfl, hs⟩ := cons_of_beside h h'
    cases s with
    | index i => rfl
    | key k' =>
      have hk : k' ≠ k := fun e => hs (e ▸ rfl)
      simp [Value.get?, Value.child?, Members.find?_put, hk]
  around m h := by
    obtain rfl := encloses_singleton h
    refine ⟨_, _, rfl, rfl, ?_⟩
    by_cases hk : k ∈ Members.keys ms
    · exact .inl (.object (by rw [Members.keys_put, if_pos hk]))
    · exact .inr (.last rfl hk (by rw [Members.keys_put, if_neg hk]))

theorem isUpdate_item {vs : List Value} {i : Nat} (hi : i < vs.length) (v : Value) :
    IsUpdate (.array vs) [.index i] v (.array (vs.set i v)) where
  stored := by simp [Value.get?, Value.child?, hi]
  beside m h h' := by
    obtain ⟨s, r, rfl, hs⟩ := cons_of_beside h h'
    cases s with
    | key k => rfl
    | index j =>
      have hj : i ≠ j := fun e => hs (e ▸ rfl)
      simp [Value.get?, Value.child?, hj]
  around m h := by
    obtain rfl := encloses_singleton h
    exact ⟨_, _, rfl, rfl, .inl (.array (List.length_set ..).symm)⟩

/-! ## Whole locations -/

theorem Location.Encloses.of_append {n b m : Location} (h : Encloses n (b ++ m)) :
    Encloses n b ∨ ∃ r, n = b ++ r ∧ Encloses r m := by
  obtain ⟨s, r, h⟩ := h
  rcases List.append_eq_append_iff.1 h with ⟨a, rfl, hm⟩ | ⟨a, rfl, hr⟩
  · exact .inr ⟨a, rfl, s, r, hm⟩
  · cases a with
    | nil => exact .inr ⟨[], by simp, s, r, hr.symm⟩
    | cons x a => exact .inl ⟨x, a, rfl⟩

theorem GainsKey.append {r m : Location} {c c' : Value} (h : GainsKey r m c c') (b : Location) :
    GainsKey (b ++ r) (b ++ m) c c' := by
  cases h with
  | last hl hk hkeys => exact .last (by rw [hl, List.append_assoc]) hk hkeys

theorem sameOutline_put {t c : Value} {b n : Location} (hc : t.get? b = some c) (w : Value)
    (h : Encloses n b) :
    ∃ d d', t.get? n = some d ∧ (t.put b w).get? n = some d' ∧ SameOutline d d' := by
  obtain ⟨s, r, rfl⟩ := h
  rw [Value.get?_append, Option.bind_eq_some_iff] at hc
  obtain ⟨d, hd, hc⟩ := hc
  rw [Value.get?, Option.bind_eq_some_iff] at hc
  obtain ⟨e, he, -⟩ := hc
  refine ⟨d, d.put (s :: r) w, hd, ?_, SameOutline.alterChild _ he⟩
  rw [Value.get?_put_append, hd, Option.map_some]

theorem IsUpdate.put {t c c' v : Value} {b m : Location} (hc : t.get? b = some c)
    (h : IsUpdate c m v c') : IsUpdate t (b ++ m) v (t.put b c') := by
  have hput := Value.get?_put c' hc
  refine ⟨?_, fun n hn hn' => ?_, fun n hn => ?_⟩
  · rw [Value.get?_append, hput]
    exact h.stored
  · by_cases hb : b <+: n
    · obtain ⟨r, rfl⟩ := hb
      rw [Value.get?_append, Value.get?_append, hput, hc]
      rw [List.prefix_append_right_inj] at hn hn'
      exact h.beside r hn hn'
    · exact Value.get?_put_of_disjoint _ _ hb fun e => hn' (e.trans (List.prefix_append ..))
  · rcases hn.of_append with hn | ⟨r, rfl, hr⟩
    · obtain ⟨d, d', hd, hd', hs⟩ := sameOutline_put hc c' hn
      exact ⟨d, d', hd, hd', .inl hs⟩
    · obtain ⟨d, d', hd, hd', hs⟩ := h.around r hr
      refine ⟨d, d', ?_, ?_, hs.imp_right (·.append b)⟩
      · rw [Value.get?_append, hc, Option.bind_some, hd]
      · rw [Value.get?_append, hput, Option.bind_some, hd']

theorem Segment.Stores.isUpdate {s : Segment} {v c c' : Value} {m : Location}
    (h : s.Stores v c m c') : IsUpdate c m v c' := by
  cases h with
  | member hs => exact isUpdate_member ..
  | @element ms vs i hs hm hi =>
    have hc : (Value.object ms).get? [.key s.name] = some (.array vs) := by
      simp [Value.get?, Value.child?, hm]
    have := (isUpdate_item hi v).put hc
    rwa [Members.put_eq_alter (Members.mem_keys_of_find? hm)]
  | item hs hn hi => exact isUpdate_item hi v

/-! ## Nothing is left open -/

/-- A container that holds the value at the end of `l` has its key, so it cannot have the outline
that it had before it gained this key. -/
theorem GainsKey.not_sameOutline {u v c c' d : Value} {m l : Location} (hg : GainsKey m l c d)
    (hc : u.get? m = some c') (hu : u.get? l = some v) : ¬ SameOutline c c' := by
  intro h
  cases hg with
  | @last ms ms' k hl hk hkeys =>
    cases h with
    | @object _ ns hns =>
      rw [hl, Value.get?_append, hc, Option.bind_some] at hu
      have hf : Members.find? k ns = none := Members.find?_eq_none_iff.2 (hns ▸ hk)
      simp [Value.get?, Value.child?, hf] at hu

theorem sameOutline_of_gainsKey {m l : Location} {c d d' : Value} (h : GainsKey m l c d)
    (h' : GainsKey m l c d') : SameOutline d d' := by
  cases h with
  | @last ms ms' k hl hk hkeys =>
    cases h' with
    | @last _ ns k' hl' hk' hkeys' =>
      rw [hl] at hl'
      obtain rfl : k = k' := by simpa using hl'
      exact .object (hkeys.trans hkeys'.symm)

theorem IsUpdate.unique {t u v t' : Value} {l : Location} (hu : u.Distinct)
    (h : IsUpdate t l v u) (h' : IsUpdate t l v t') : u = t' := by
  refine Value.eq_of_sameOutline (l := l) hu (fun m hm => ?_) fun m hm => ?_
  · obtain ⟨c, d, hc, hd, hout⟩ := h.around m hm
    obtain ⟨c', d', hc', hd', hout'⟩ := h'.around m hm
    rw [hc, Option.some.injEq] at hc'
    subst hc'
    refine ⟨d, d', hd, hd', ?_⟩
    rcases hout with hs | hg
    · rcases hout' with hs' | hg'
      · exact hs.symm.trans hs'
      · exact absurd hs (hg'.not_sameOutline hd h.stored)
    · rcases hout' with hs' | hg'
      · exact absurd hs' (hg.not_sameOutline hd' h'.stored)
      · exact sameOutline_of_gainsKey hg hg'
  · by_cases hl : l <+: m
    · obtain ⟨r, rfl⟩ := hl
      rw [Value.get?_append, Value.get?_append, h.stored, h'.stored]
    · have hm' : ¬ m <+: l := by
        rintro ⟨r, rfl⟩
        cases r with
        | nil => exact hl (by simp)
        | cons s r => exact hm ⟨s, r, rfl⟩
      rw [h.beside m hl hm', h'.beside m hl hm']

/-! ## Edits -/

/-- An edit that succeeds is an update at the location which the path addresses, and the only
document of distinct keys that is one. Editing a text is this same edit of the document read from
it, printed. -/
theorem set_isUpdate_and_editDocument_eq_ok_iff :
    (∀ (t t' v : Value) (p : Path), t.set p v = .ok t' →
      ∃ l, p.Addresses t l ∧ IsUpdate t l v t' ∧ ∀ u, u.Distinct → IsUpdate t l v u → u = t') ∧
    ∀ document path raw text, editDocument document path raw = .ok text ↔
      ∃ t p t', readDocument document = .ok t ∧ readPath path = .ok p ∧
        t.set p (infer raw) = .ok t' ∧ text = Json.print t' := by
  constructor
  · intro t t' v p h
    obtain ⟨c, m, c', hc, hm, rfl⟩ := set_eq_ok_iff.1 h
    have hup := hm.isUpdate.put hc
    exact ⟨p.base ++ m, ⟨c, m, hc, hm.points, rfl⟩, hup, fun u hu h' => h'.unique hu hup⟩
  · intro document path raw text
    rw [editDocument_eq]
    cases hd : readDocument document with
    | error e => simp [Except.bind]
    | ok t =>
      cases hp : readPath path with
      | error e => simp [Except.bind]
      | ok p =>
        show (t.set p (infer raw)).map Json.print = .ok text ↔ _
        rw [map_eq_ok_iff]
        constructor
        · rintro ⟨t', ht', rfl⟩
          exact ⟨t, p, t', rfl, rfl, ht', rfl⟩
        · rintro ⟨_, _, t', ⟨⟩, ⟨⟩, ht', rfl⟩
          exact ⟨t', ht', rfl⟩

theorem set_isUpdate_new_member :
    (Value.object [("a", .object [("b", .null)]), ("d", .null)]).set
        ⟨"a.c", [.key "a"], .key "c"⟩ (.boolean true) =
      .ok (.object [("a", .object [("b", .null), ("c", .boolean true)]), ("d", .null)]) ∧
    ∃ l, Path.Addresses ⟨"a.c", [.key "a"], .key "c"⟩
        (.object [("a", .object [("b", .null)]), ("d", .null)]) l ∧
      IsUpdate (.object [("a", .object [("b", .null)]), ("d", .null)]) l (.boolean true)
        (.object [("a", .object [("b", .null), ("c", .boolean true)]), ("d", .null)]) := by
  have h : (Value.object [("a", .object [("b", .null)]), ("d", .null)]).set
      ⟨"a.c", [.key "a"], .key "c"⟩ (.boolean true) =
    .ok (.object [("a", .object [("b", .null), ("c", .boolean true)]), ("d", .null)]) := by
    rfl
  obtain ⟨l, hl, hup, -⟩ := set_isUpdate_and_editDocument_eq_ok_iff.1 _ _ _ _ h
  exact ⟨h, l, hl, hup⟩

end JsonEdit
