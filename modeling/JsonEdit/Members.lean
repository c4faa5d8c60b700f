/-!
# Members in order

* The members of an object, or the files of a folder, are pairs in the order in which their keys
  first arrived.
* `put` replaces the value of a key where the key stands, and appends a new key at the end;
  `alter` changes the value of a key that is there.
* Main statements: `find?_put`, `keys_put`, `keys_alter`, that `put` keeps keys distinct, that
  members with distinct keys are known by their keys and what is found there (`eq_of_find?_eq`), and
  that two keys may be put in either order unless both are new (`put_comm`).
-/

namespace JsonEdit.Members

variable {κ α : Type} [DecidableEq κ]

/-- The keys, in order. -/
def keys (ms : List (κ × α)) : List κ :=
  ms.map (·.1)

/-- The value of the first member with this key. -/
def find? (key : κ) : List (κ × α) → Option α
  | [] => none
  | (k, v) :: ms => if k = key then some v else find? key ms

/-- The value of the first member with this key, changed in place. -/
def alter (key : κ) (f : α → α) : List (κ × α) → List (κ × α)
  | [] => []
  | (k, v) :: ms => if k = key then (k, f v) :: ms else (k, v) :: alter key f ms

/-- A present key keeps its place and takes the new value; a new key goes to the end. -/
def put (key : κ) (v : α) : List (κ × α) → List (κ × α)
  | [] => [(key, v)]
  | (k, w) :: ms => if k = key then (k, v) :: ms else (k, w) :: put key v ms

/-! ## Keys -/

theorem keys_alter (key : κ) (f : α → α) (ms : List (κ × α)) :
    keys (alter key f ms) = keys ms := by
  induction ms with
  | nil => rfl
  | cons m ms ih =>
    by_cases h : m.1 = key
    · simp [alter, keys, h]
    · simpa [alter, keys, h] using ih

theorem keys_put (key : κ) (v : α) (ms : List (κ × α)) :
    keys (put key v ms) = if key ∈ keys ms then keys ms else keys ms ++ [key] := by
  induction ms with
  | nil => simp [put, keys]
  | cons m ms ih =>
    by_cases h : m.1 = key
    · simp [put, keys, h]
    · have h' : ¬ key = m.1 := fun e => h e.symm
      simp only [put, keys, h, if_false, List.map_cons, List.mem_cons, h', false_or] at ih ⊢
      by_cases hk : key ∈ ms.map (·.1) <;> simp [ih, hk]

theorem nodup_keys_put {key : κ} {v : α} {ms : List (κ × α)} (h : (keys ms).Nodup) :
    (keys (put key v ms)).Nodup := by
  rw [keys_put]
  split
  · exact h
  · next hk =>
    rw [List.nodup_append]
    exact ⟨h, by simp, fun a ha b hb => by rw [List.mem_singleton.1 hb]; rintro rfl; exact hk ha⟩

/-! ## Values -/

theorem find?_cons_self (key : κ) (v : α) (ms : List (κ × α)) :
    find? key ((key, v) :: ms) = some v := by
  simp [find?]

theorem find?_cons_of_ne {k key : κ} (h : k ≠ key) (v : α) (ms : List (κ × α)) :
    find? key ((k, v) :: ms) = find? key ms := by
  simp [find?, h]

theorem find?_eq_none_iff {key : κ} {ms : List (κ × α)} :
    find? key ms = none ↔ key ∉ keys ms := by
  induction ms with
  | nil => simp [find?, keys]
  | cons m ms ih =>
    by_cases h : m.1 = key
    · simp [find?, keys, h]
    · have h' : ¬ key = m.1 := fun e => h e.symm
      simpa [find?, keys, h, h'] using ih

theorem find?_append (key : κ) (ms ns : List (κ × α)) :
    find? key (ms ++ ns) = (find? key ms).or (find? key ns) := by
  induction ms with
  | nil => rfl
  | cons m ms ih => by_cases h : m.1 = key <;> simp [find?, h, ih]

theorem mem_keys_of_find? {key : κ} {v : α} {ms : List (κ × α)} (h : find? key ms = some v) :
    key ∈ keys ms := by
  refine Decidable.byContradiction fun hk => ?_
  rw [find?_eq_none_iff.2 hk] at h
  cases h

theorem exists_find?_of_mem_keys {key : κ} {ms : List (κ × α)} (h : key ∈ keys ms) :
    ∃ v, find? key ms = some v := by
  cases hf : find? key ms with
  | none => exact absurd h (find?_eq_none_iff.1 hf)
  | some v => exact ⟨v, rfl⟩

theorem mem_of_find? {key : κ} {v : α} {ms : List (κ × α)} (h : find? key ms = some v) :
    (key, v) ∈ ms := by
  induction ms with
  | nil => cases h
  | cons m ms ih =>
    obtain ⟨k, w⟩ := m
    by_cases hk : k = key
    · subst hk
      rw [find?_cons_self, Option.some.injEq] at h
      simp [h]
    · rw [find?_cons_of_ne hk] at h
      exact List.mem_cons_of_mem _ (ih h)

theorem find?_of_mem {key : κ} {v : α} {ms : List (κ × α)} (hd : (keys ms).Nodup)
    (h : (key, v) ∈ ms) : find? key ms = some v := by
  induction ms with
  | nil => cases h
  | cons m ms ih =>
    obtain ⟨k, w⟩ := m
    rw [show keys ((k, w) :: ms) = k :: keys ms from rfl, List.nodup_cons] at hd
    rcases List.mem_cons.1 h with h | h
    · obtain ⟨rfl, rfl⟩ := Prod.mk.inj h
      exact find?_cons_self ..
    · have hk : k ≠ key := by
        rintro rfl
        exact hd.1 (List.mem_map.2 ⟨_, h, rfl⟩)
      rw [find?_cons_of_ne hk]
      exact ih hd.2 h

/-- Members with distinct keys are known by their keys and by what is found under each. -/
theorem eq_of_find?_eq {ms ns : List (κ × α)} (hd : (keys ms).Nodup) (hk : keys ms = keys ns)
    (hf : ∀ key, find? key ms = find? key ns) : ms = ns := by
  induction ms generalizing ns with
  | nil =>
    cases ns with
    | nil => rfl
    | cons n ns => cases hk
  | cons m ms ih =>
    obtain ⟨k, v⟩ := m
    cases ns with
    | nil => cases hk
    | cons n ns =>
      obtain ⟨k', v'⟩ := n
      simp only [keys, List.map_cons, List.cons.injEq] at hk
      obtain ⟨rfl, hk⟩ := hk
      rw [show keys ((k, v) :: ms) = k :: keys ms from rfl, List.nodup_cons] at hd
      have hv := hf k
      rw [find?_cons_self, find?_cons_self, Option.some.injEq] at hv
      subst hv
      rw [ih hd.2 hk]
      intro key
      by_cases hkey : k = key
      · subst hkey
        rw [find?_eq_none_iff.2 hd.1, find?_eq_none_iff.2]
        rw [← show keys ms = keys ns from hk]
        exact hd.1
      · have := hf key
        rwa [find?_cons_of_ne hkey, find?_cons_of_ne hkey] at this

theorem mem_put {key : κ} {v : α} {ms : List (κ × α)} {m : κ × α} (h : m ∈ put key v ms) :
    m = (key, v) ∨ m ∈ ms := by
  induction ms with
  | nil => exact .inl (List.mem_singleton.1 h)
  | cons n ms ih =>
    obtain ⟨k, w⟩ := n
    rw [put] at h
    split at h
    · next hk =>
      rcases List.mem_cons.1 h with rfl | h
      · exact .inl (hk ▸ rfl)
      · exact .inr (List.mem_cons_of_mem _ h)
    · rcases List.mem_cons.1 h with rfl | h
      · exact .inr List.mem_cons_self
      · exact (ih h).imp_right (List.mem_cons_of_mem _)

theorem find?_put (key k : κ) (v : α) (ms : List (κ × α)) :
    find? k (put key v ms) = if k = key then some v else find? k ms := by
  induction ms with
  | nil =>
    by_cases h : k = key
    · simp [put, find?, h]
    · have h' : ¬ key = k := fun e => h e.symm
      simp [put, find?, h, h']
  | cons m ms ih =>
    by_cases h : m.1 = key
    · by_cases hk : k = key
      · simp [put, find?, h, hk]
      · have hk' : ¬ key = k := fun e => hk e.symm
        simp [put, find?, h, hk, hk']
    · by_cases hm : m.1 = k
      · have hk : ¬ k = key := fun e => h (hm.trans e)
        simp [put, find?, hm, hk]
      · simp [put, find?, h, hm, ih]

/-- All members with other keys stay as they are. -/
theorem filter_put (key : κ) (v : α) (ms : List (κ × α)) :
    (put key v ms).filter (·.1 ≠ key) = ms.filter (·.1 ≠ key) := by
  induction ms with
  | nil => simp [put]
  | cons m ms ih =>
    obtain ⟨k, w⟩ := m
    by_cases hk : k = key
    · simp [put, hk]
    · rw [put, if_neg hk, List.filter_cons_of_pos (by simpa using hk),
        List.filter_cons_of_pos (by simpa using hk), ih]

theorem find?_alter (key k : κ) (f : α → α) (ms : List (κ × α)) :
    find? k (alter key f ms) = if k = key then (find? k ms).map f else find? k ms := by
  induction ms with
  | nil => simp [alter, find?]
  | cons m ms ih =>
    by_cases h : m.1 = key
    · by_cases hk : k = key
      · simp [alter, find?, h, hk]
      · have hk' : ¬ key = k := fun e => hk e.symm
        simp [alter, find?, h, hk, hk']
    · by_cases hm : m.1 = k
      · have hk : ¬ k = key := fun e => h (hm.trans e)
        simp [alter, find?, hm, hk]
      · simp [alter, find?, h, hm, ih]

theorem alter_congr {key : κ} {f g : α → α} {ms : List (κ × α)}
    (h : ∀ v, find? key ms = some v → f v = g v) : alter key f ms = alter key g ms := by
  induction ms with
  | nil => rfl
  | cons m ms ih =>
    obtain ⟨k, v⟩ := m
    by_cases hk : k = key
    · subst hk
      simp [alter, h v (find?_cons_self ..)]
    · rw [find?_cons_of_ne hk] at h
      simp [alter, hk, ih h]

theorem alter_id (key : κ) (ms : List (κ × α)) : alter key id ms = ms := by
  induction ms with
  | nil => rfl
  | cons m ms ih =>
    obtain ⟨k, v⟩ := m
    by_cases hk : k = key <;> simp [alter, hk, ih]

theorem alter_alter (key : κ) (f g : α → α) (ms : List (κ × α)) :
    alter key g (alter key f ms) = alter key (g ∘ f) ms := by
  induction ms with
  | nil => rfl
  | cons m ms ih => by_cases hk : m.1 = key <;> simp [alter, hk, ih]

theorem put_eq_alter {key : κ} {v : α} {ms : List (κ × α)} (h : key ∈ keys ms) :
    put key v ms = alter key (fun _ => v) ms := by
  induction ms with
  | nil => simp [keys] at h
  | cons m ms ih =>
    by_cases hm : m.1 = key
    · simp [put, alter, hm]
    · have hm' : ¬ key = m.1 := fun e => hm e.symm
      simp only [keys, List.map_cons, List.mem_cons, hm', false_or] at h
      simp [put, alter, hm, ih h]

theorem put_put (key : κ) (v w : α) (ms : List (κ × α)) :
    put key w (put key v ms) = put key w ms := by
  induction ms with
  | nil => simp [put]
  | cons m ms ih => by_cases hm : m.1 = key <;> simp [put, hm, ih]

theorem put_of_not_mem {key : κ} {v : α} {ms : List (κ × α)} (h : key ∉ keys ms) :
    put key v ms = ms ++ [(key, v)] := by
  induction ms with
  | nil => rfl
  | cons m ms ih =>
    simp only [keys, List.map_cons, List.mem_cons, not_or] at h
    have hm : ¬ m.1 = key := fun e => h.1 e.symm
    simp [put, hm, ih h.2]

/-! ## Two keys -/

theorem alter_comm {key k : κ} (h : key ≠ k) (f g : α → α) (ms : List (κ × α)) :
    alter k g (alter key f ms) = alter key f (alter k g ms) := by
  induction ms with
  | nil => rfl
  | cons m ms ih =>
    by_cases hm : m.1 = key
    · simp [alter, hm, h]
    · by_cases hk : m.1 = k
      · simp [alter, hk, h.symm]
      · simp [alter, hm, hk, ih]

theorem put_alter_comm {key k : κ} (h : key ≠ k) (f : α → α) (w : α) (ms : List (κ × α)) :
    put k w (alter key f ms) = alter key f (put k w ms) := by
  induction ms with
  | nil => simp [alter, put, h.symm]
  | cons m ms ih =>
    by_cases hm : m.1 = key
    · simp [alter, put, hm, h]
    · by_cases hk : m.1 = k
      · simp [alter, put, hk, h.symm]
      · simp [alter, put, hm, hk, ih]

/-- Two keys may be put in either order, unless both are new. -/
theorem put_comm {key k : κ} (h : key ≠ k) (v w : α) {ms : List (κ × α)}
    (hms : key ∈ keys ms ∨ k ∈ keys ms) : put k w (put key v ms) = put key v (put k w ms) := by
  have hleft : ∀ {key k : κ} (v w : α), key ≠ k → key ∈ keys ms →
      put k w (put key v ms) = put key v (put k w ms) := by
    intro key k v w h hkey
    have hput : key ∈ keys (put k w ms) := by
      rw [keys_put]
      split
      · exact hkey
      · exact List.mem_append_left _ hkey
    rw [put_eq_alter hkey, put_eq_alter hput, put_alter_comm h]
  rcases hms with hkey | hk
  · exact hleft v w h hkey
  · exact (hleft w v h.symm hk).symm

end JsonEdit.Members
