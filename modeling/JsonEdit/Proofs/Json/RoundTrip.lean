import JsonEdit.Proofs.Json.Quoted
import JsonEdit.Proofs.Json.Regular
import JsonEdit.Proofs.Json.Taken

/-!
# Documents read back

* `v.nesting` counts the containers that stand inside each other.
* `v.reread` is the value that is read where `v` is printed. It is `v`, unless a fraction in `v`
  does not survive (`Value.reread_eq_self`).
* The printer and the reader agree one value at a time: behind the text of `v` the reader goes on
  with `v.reread`, unless too many containers had to be open on the way (`readsBack`).
* A printed document is read back if it nests at most `maxOpen` containers, and refused as too deep
  if it nests more.
-/

namespace JsonEdit

/-! ## Nesting -/

mutual

/-- How many containers stand inside each other, at most. -/
def Value.nesting : Value → Nat
  | .array vs => itemsNesting vs + 1
  | .object ms => membersNesting ms + 1
  | _ => 0

/-- The greatest nesting among some items. -/
def Value.itemsNesting : List Value → Nat
  | [] => 0
  | v :: vs => max v.nesting (itemsNesting vs)

/-- The greatest nesting among the values of some members. -/
def Value.membersNesting : List (String × Value) → Nat
  | [] => 0
  | (_, v) :: ms => max v.nesting (membersNesting ms)

end

/-! ## What comes back -/

mutual

/-- The value that is read where `v` is printed, if it does not nest too deep. -/
def Value.reread : Value → Value
  | .number x => x.reread
  | .array vs => .array (rereadItems vs)
  | .object ms => .object (rereadMembers ms)
  | v => v

def Value.rereadItems : List Value → List Value
  | [] => []
  | v :: vs => v.reread :: rereadItems vs

def Value.rereadMembers : List (String × Value) → List (String × Value)
  | [] => []
  | (k, v) :: ms => (k, v.reread) :: rereadMembers ms

end

/-- Nothing in the value itself, its parts left aside, gets lost when it is written. -/
structure Value.Writable (v : Value) : Prop extends v.Regular where
  fraction : v.FractionSurvives

namespace Json

/-! ## Styles -/

/-- What sets parts apart is blank but for the colon behind a key. -/
structure Style.Readable (style : Style) : Prop where
  gap : ∀ depth, AllBlank (style.gap depth)
  colon : ∃ bs cs, style.colon = bs ++ ':' :: cs ∧ AllBlank bs ∧ AllBlank cs

theorem indented_readable : indented.Readable where
  gap depth := by
    refine List.forall_mem_cons.2 ⟨rfl, fun c hc => ?_⟩
    rw [List.eq_of_mem_replicate hc]
    rfl
  colon := ⟨[], [' '], rfl, List.forall_mem_nil _, List.forall_mem_singleton.2 rfl⟩

theorem compact_readable : compact.Readable where
  gap _ := List.forall_mem_nil _
  colon := ⟨[], [], rfl, List.forall_mem_nil _, List.forall_mem_nil _⟩

/-! ## Too many containers -/

/-- The reader goes on from `x` as from `y`, if `n` containers may be open at a time. Otherwise it
refuses the text; where it does so is left open. -/
def Opens (n : Nat) (x y : Except Fault Value) : Prop :=
  if n ≤ maxOpen then x = y else ∃ unread, x = .error ⟨.tooDeep, unread⟩

variable {m n : Nat} {x y z : Except Fault Value}

theorem Opens.of_eq (hn : n ≤ maxOpen) (h : x = y) : Opens n x y := by
  unfold Opens
  rwa [if_pos hn]

theorem Opens.tooDeep {unread : Nat} (hn : maxOpen < n)
    (h : x = .error ⟨.tooDeep, unread⟩) : Opens n x y := by
  unfold Opens
  rw [if_neg (Nat.not_le.2 hn)]
  exact ⟨unread, h⟩

theorem Opens.trans (h : Opens m x y) (h' : Opens n y z) : Opens (max m n) x z := by
  unfold Opens at *
  by_cases hm : m ≤ maxOpen
  · rw [if_pos hm] at h
    subst h
    by_cases hn : n ≤ maxOpen
    · rw [if_pos hn] at h'
      rwa [if_pos (Nat.max_le.2 ⟨hm, hn⟩)]
    · rw [if_neg hn] at h'
      rwa [if_neg fun hmax => hn (Nat.max_le.1 hmax).2]
  · rw [if_neg hm] at h
    rwa [if_neg fun hmax => hm (Nat.max_le.1 hmax).1]

/-! ## What stands around a value -/

variable {style : Style} {stack : List Frame} {v : Value} {bs r : List Char}

theorem write_head (style : Style) (depth : Nat) (hv : v.Regular) :
    ∃ c t, write style depth v = c :: t ∧ isBlank c = false ∧ c ≠ ']' := by
  rcases v with _ | b | x | s | vs | ms
  · exact ⟨'n', _, rfl, by decide, by decide⟩
  · cases b
    · exact ⟨'f', _, rfl, by decide, by decide⟩
    · exact ⟨'t', _, rfl, by decide, by decide⟩
  · rcases writeNumber_cases hv.integer with ⟨hnull, -⟩ | ⟨n, y, hw, -, -⟩
    · exact ⟨'n', _, hnull, by decide, by decide⟩
    · obtain ⟨c, t, ht, hc⟩ := hw.head?
      exact ⟨c, t, ht, not_blank_of_startsNumber hc⟩
  · exact ⟨'"', _, rfl, by decide, by decide⟩
  · rcases vs with _ | ⟨v, vs⟩
    · exact ⟨'[', _, rfl, by decide, by decide⟩
    · rw [write, List.cons_append, List.cons_append, List.cons_append, List.cons_append]
      exact ⟨'[', _, rfl, by decide, by decide⟩
  · rcases ms with _ | ⟨⟨k, v⟩, ms⟩
    · exact ⟨'\x7b', _, rfl, by decide, by decide⟩
    · rw [write]
      simp only [List.cons_append]
      exact ⟨'\x7b', _, rfl, by decide, by decide⟩

theorem exists_readKey (hs : style.Readable) (key : String) (r : List Char) :
    ∃ bs, AllBlank bs ∧
      ∃ h, readKey (escape key.toList ++ '"' :: (style.colon ++ r)) = .ok (key, ⟨bs ++ r, h⟩) := by
  obtain ⟨bs, cs, hcolon, hb, hc⟩ := hs.colon
  refine ⟨cs, hc, ?_⟩
  rw [hcolon, List.append_assoc, List.cons_append]
  obtain ⟨h, hq⟩ := readQuoted_escape key (bs ++ ':' :: (cs ++ r))
  obtain ⟨h', hnext⟩ := next?_append (c := ':') hb rfl (cs ++ r)
  exact readKey_of hq hnext

/-! ## Scalars -/

theorem readValue_quote (s : String) (hb : AllBlank bs) :
    readValue stack (bs ++ (quote s ++ r)) = goOn stack (.string s) r := by
  obtain ⟨h, hq⟩ := readQuoted_escape s r
  obtain ⟨h', hnext⟩ := next?_append (c := '"') hb rfl (escape s.toList ++ '"' :: r)
  have htext : quote s ++ r = '"' :: (escape s.toList ++ '"' :: r) := by simp [quote]
  rw [htext]
  exact readValue_string hnext hq

/-! ## Containers -/

theorem write_array_append (depth : Nat) (v : Value) (vs : List Value) (r : List Char) :
    write style depth (.array (v :: vs)) ++ r =
      '[' :: (style.gap (depth + 1) ++ (write style (depth + 1) v ++
        (writeItems style (depth + 1) vs ++ (style.gap depth ++ ']' :: r)))) := by
  simp [write]

theorem writeItems_cons_append (depth : Nat) (v : Value) (vs : List Value) (r : List Char) :
    writeItems style depth (v :: vs) ++ r =
      ',' :: (style.gap depth ++ (write style depth v ++ (writeItems style depth vs ++ r))) := by
  simp [writeItems]

theorem write_object_append (depth : Nat) (k : String) (v : Value) (ms : List (String × Value))
    (r : List Char) :
    write style depth (.object ((k, v) :: ms)) ++ r =
      '\x7b' :: (style.gap (depth + 1) ++ '"' :: (escape k.toList ++ '"' :: (style.colon ++
        (write style (depth + 1) v ++
          (writeMembers style (depth + 1) ms ++ (style.gap depth ++ '\x7d' :: r)))))) := by
  simp [write, quote]

theorem writeMembers_cons_append (depth : Nat) (k : String) (v : Value)
    (ms : List (String × Value)) (r : List Char) :
    writeMembers style depth ((k, v) :: ms) ++ r =
      ',' :: (style.gap depth ++ '"' :: (escape k.toList ++ '"' :: (style.colon ++
        (write style depth v ++ (writeMembers style depth ms ++ r))))) := by
  simp [writeMembers, quote]

theorem endsNumber_writeItems (hs : style.Readable) (depth : Nat) (vs : List Value) (d : Nat)
    (r : List Char) :
    Numeral.EndsNumber (writeItems style depth vs ++ (style.gap d ++ ']' :: r)) := by
  rcases vs with _ | ⟨v, vs⟩
  · exact endsNumber_blank (hs.gap d) (.inr (.inl rfl)) r
  · rw [writeItems_cons_append]
    exact endsNumber_cons (.inl rfl) _

theorem endsNumber_writeMembers (hs : style.Readable) (depth : Nat) (ms : List (String × Value))
    (d : Nat) (r : List Char) :
    Numeral.EndsNumber (writeMembers style depth ms ++ (style.gap d ++ '\x7d' :: r)) := by
  rcases ms with _ | ⟨⟨k, v⟩, ms⟩
  · exact endsNumber_blank (hs.gap d) (.inr (.inr rfl)) r
  · rw [writeMembers_cons_append]
    exact endsNumber_cons (.inl rfl) _

/-- Behind the text of `v` the reader goes on with what comes back. -/
def ReadsBack (style : Style) (v : Value) : Prop :=
  ∀ (stack : List Frame) (bs r : List Char) (depth : Nat), stack.length ≤ maxOpen → AllBlank bs →
    Numeral.EndsNumber r →
      Opens (stack.length + v.nesting) (readValue stack (bs ++ (write style depth v ++ r)))
        (goOn stack v.reread r)

/-- Behind the text of the items `vs` and of the end of the list, the reader goes on with a list
that ends with what comes back. -/
def ItemsReadBack (style : Style) (vs : List Value) : Prop :=
  ∀ (stack : List Frame) (done : List Value) (v : Value) (r : List Char) (depth : Nat),
    stack.length < maxOpen →
      Opens (stack.length + 1 + Value.itemsNesting vs)
        (goOn (.items done :: stack) v
          (writeItems style (depth + 1) vs ++ (style.gap depth ++ ']' :: r)))
        (goOn stack (.array (done.reverse ++ v :: Value.rereadItems vs)) r)

/-- The same for the members of an object, whose keys differ from those in front of them. -/
def MembersReadBack (style : Style) (ms : List (String × Value)) : Prop :=
  ∀ (stack : List Frame) (done : List (String × Value)) (k : String) (v : Value) (r : List Char)
    (depth : Nat), stack.length < maxOpen →
      (Members.keys (done ++ (k, v) :: ms)).Nodup →
        Opens (stack.length + 1 + Value.membersNesting ms)
          (goOn (.members done k :: stack) v
            (writeMembers style (depth + 1) ms ++ (style.gap depth ++ '\x7d' :: r)))
          (goOn stack (.object (done ++ (k, v) :: Value.rereadMembers ms)) r)

theorem readsBack_word {c : Char} {letters : List Char} (hc : isBlank c = false)
    (hword : word? c = some (letters, v)) (hwrite : ∀ depth, write style depth v = c :: letters)
    (hn : v.nesting = 0) (hreread : v.reread = v) : ReadsBack style v := by
  intro stack bs r depth hstack hb hr
  rw [hn, hreread, hwrite, List.cons_append]
  obtain ⟨h, hnext⟩ := next?_append hb hc (letters ++ r)
  exact .of_eq hstack (readValue_word hnext hword)

theorem readsBack_number {x : Number} (hx : Value.IntegerFits (.number x)) :
    ReadsBack style (.number x) := by
  intro stack bs r depth hstack hb hr
  rw [Value.reread, write]
  rcases writeNumber_cases hx with ⟨hnull, hreread⟩ | ⟨n, y, hw, hy, hreread⟩
  · rw [hnull, hreread]
    exact .of_eq hstack (readValue_null hb)
  · rw [hreread]
    exact .of_eq hstack (readValue_numeral hw hy hb hr)

theorem readsBack_string (s : String) : ReadsBack style (.string s) := by
  intro stack bs r depth hstack hb hr
  exact .of_eq hstack (readValue_quote s hb)

theorem readsBack_emptyArray : ReadsBack style (.array []) := by
  intro stack bs r depth hstack hb hr
  obtain ⟨h, hnext⟩ := next?_append (c := '[') hb rfl (']' :: r)
  show Opens (stack.length + 1) (readValue stack (bs ++ '[' :: (']' :: r))) _
  by_cases hopen : stack.length < maxOpen
  · obtain ⟨h', hclose⟩ := next?_cons (c := ']') rfl r
    exact .of_eq hopen (readValue_emptyList hnext hopen hclose)
  · exact .tooDeep (by omega) (readValue_tooDeep hnext (.inl rfl) hopen)

theorem readsBack_emptyObject : ReadsBack style (.object []) := by
  intro stack bs r depth hstack hb hr
  obtain ⟨h, hnext⟩ := next?_append (c := '\x7b') hb rfl ('\x7d' :: r)
  show Opens (stack.length + 1) (readValue stack (bs ++ '\x7b' :: ('\x7d' :: r))) _
  by_cases hopen : stack.length < maxOpen
  · obtain ⟨h', hclose⟩ := next?_cons (c := '\x7d') rfl r
    exact .of_eq hopen (readValue_emptyObject hnext hopen hclose)
  · exact .tooDeep (by omega) (readValue_tooDeep hnext (.inr rfl) hopen)

theorem next?_gap_write (hs : style.Readable) (hv : v.Regular) (d depth : Nat) (r : List Char) :
    ∃ c t h, c ≠ ']' ∧ next? (style.gap d ++ (write style depth v ++ r)) = some (c, ⟨t, h⟩) := by
  obtain ⟨c, t, hw, hc, hne⟩ := write_head style depth hv
  obtain ⟨h, hnext⟩ := next?_append (hs.gap d) hc (t ++ r)
  rw [hw, List.cons_append]
  exact ⟨c, t ++ r, h, hne, hnext⟩

theorem readsBack_array {vs : List Value} (hs : style.Readable) (hv : v.Regular)
    (hread : ReadsBack style v) (hitems : ItemsReadBack style vs) :
    ReadsBack style (.array (v :: vs)) := by
  intro stack bs r depth hstack hb hr
  have hnesting : stack.length + (Value.array (v :: vs)).nesting =
      max (stack.length + 1 + v.nesting) (stack.length + 1 + Value.itemsNesting vs) := by
    simp only [Value.nesting, Value.itemsNesting]
    omega
  rw [write_array_append, hnesting]
  obtain ⟨h, hnext⟩ := next?_append (c := '[') hb rfl (style.gap (depth + 1) ++
    (write style (depth + 1) v ++
      (writeItems style (depth + 1) vs ++ (style.gap depth ++ ']' :: r))))
  by_cases hopen : stack.length < maxOpen
  · obtain ⟨c, t, h', hne, hfirst⟩ := next?_gap_write hs hv (depth + 1) (depth + 1)
      (writeItems style (depth + 1) vs ++ (style.gap depth ++ ']' :: r))
    rw [readValue_list hnext hopen hfirst hne]
    -- the first item is read inside this list, the others behind it
    have hvalue := hread (.items [] :: stack) (style.gap (depth + 1)) _ (depth + 1) hopen
      (hs.gap (depth + 1)) (endsNumber_writeItems hs (depth + 1) vs depth r)
    exact hvalue.trans (hitems stack [] v.reread r depth hopen)
  · exact .tooDeep (by omega) (readValue_tooDeep hnext (.inl rfl) hopen)

theorem itemsReadBack_nil (hs : style.Readable) : ItemsReadBack style [] := by
  intro stack done v r depth hopen
  obtain ⟨h, hnext⟩ := next?_append (c := ']') (hs.gap depth) rfl r
  have hdone : done.reverse ++ [v] = (v :: done).reverse := List.reverse_cons.symm
  rw [Value.rereadItems, hdone]
  exact .of_eq hopen (goOn_closeList hnext)

theorem itemsReadBack_cons {w : Value} {vs : List Value} (hs : style.Readable) (hw : w.Regular)
    (hread : ReadsBack style w) (hitems : ItemsReadBack style vs) :
    ItemsReadBack style (w :: vs) := by
  intro stack done v r depth hopen
  have hnesting : stack.length + 1 + Value.itemsNesting (w :: vs) =
      max (stack.length + 1 + w.nesting) (stack.length + 1 + Value.itemsNesting vs) := by
    simp only [Value.itemsNesting]
    omega
  have hdone : done.reverse ++ v :: Value.rereadItems (w :: vs) =
      (v :: done).reverse ++ w.reread :: Value.rereadItems vs := by
    simp [Value.rereadItems]
  rw [writeItems_cons_append, hnesting, hdone]
  obtain ⟨h, hcomma⟩ := next?_cons (c := ',') rfl (style.gap (depth + 1) ++
    (write style (depth + 1) w ++
      (writeItems style (depth + 1) vs ++ (style.gap depth ++ ']' :: r))))
  obtain ⟨c, t, h', hne, hfirst⟩ := next?_gap_write hs hw (depth + 1) (depth + 1)
    (writeItems style (depth + 1) vs ++ (style.gap depth ++ ']' :: r))
  rw [goOn_nextItem hcomma hfirst hne]
  have hvalue := hread (.items (v :: done) :: stack) (style.gap (depth + 1)) _ (depth + 1) hopen
    (hs.gap (depth + 1)) (endsNumber_writeItems hs (depth + 1) vs depth r)
  exact hvalue.trans (hitems stack (v :: done) w.reread r depth hopen)

theorem readsBack_object {k : String} {ms : List (String × Value)} (hs : style.Readable)
    (hkeys : (Members.keys ((k, v) :: ms)).Nodup) (hread : ReadsBack style v)
    (hmembers : MembersReadBack style ms) : ReadsBack style (.object ((k, v) :: ms)) := by
  intro stack bs r depth hstack hb hr
  have hnesting : stack.length + (Value.object ((k, v) :: ms)).nesting =
      max (stack.length + 1 + v.nesting) (stack.length + 1 + Value.membersNesting ms) := by
    simp only [Value.nesting, Value.membersNesting]
    omega
  rw [write_object_append, hnesting]
  obtain ⟨h, hnext⟩ := next?_append (c := '\x7b') hb rfl (style.gap (depth + 1) ++ '"' ::
    (escape k.toList ++ '"' :: (style.colon ++ (write style (depth + 1) v ++
      (writeMembers style (depth + 1) ms ++ (style.gap depth ++ '\x7d' :: r))))))
  by_cases hopen : stack.length < maxOpen
  · obtain ⟨h', hquote⟩ := next?_append (c := '"') (hs.gap (depth + 1)) rfl
      (escape k.toList ++ '"' :: (style.colon ++ (write style (depth + 1) v ++
        (writeMembers style (depth + 1) ms ++ (style.gap depth ++ '\x7d' :: r)))))
    obtain ⟨bs', hb', h'', hkey⟩ := exists_readKey hs k (write style (depth + 1) v ++
      (writeMembers style (depth + 1) ms ++ (style.gap depth ++ '\x7d' :: r)))
    rw [readValue_object hnext hopen hquote hkey]
    have hvalue := hread (.members [] k :: stack) bs' _ (depth + 1) hopen hb'
      (endsNumber_writeMembers hs (depth + 1) ms depth r)
    have hkeys' : (Members.keys ([] ++ (k, v.reread) :: ms)).Nodup := hkeys
    exact hvalue.trans (hmembers stack [] k v.reread r depth hopen hkeys')
  · exact .tooDeep (by omega) (readValue_tooDeep hnext (.inr rfl) hopen)

theorem put_of_nodup {done ms : List (String × Value)} {k : String}
    (hkeys : (Members.keys (done ++ (k, v) :: ms)).Nodup) :
    Members.put k v done = done ++ [(k, v)] := by
  refine Members.put_of_not_mem fun hk => ?_
  rw [Members.keys, List.map_append, List.map_cons, List.nodup_append] at hkeys
  exact hkeys.2.2 k hk k List.mem_cons_self rfl

theorem membersReadBack_nil (hs : style.Readable) : MembersReadBack style [] := by
  intro stack done k v r depth hopen hkeys
  obtain ⟨h, hnext⟩ := next?_append (c := '\x7d') (hs.gap depth) rfl r
  rw [Value.rereadMembers, ← put_of_nodup hkeys]
  exact .of_eq hopen (goOn_closeObject hnext)

theorem membersReadBack_cons {k : String} {w : Value} {ms : List (String × Value)}
    (hs : style.Readable) (hread : ReadsBack style w) (hmembers : MembersReadBack style ms) :
    MembersReadBack style ((k, w) :: ms) := by
  intro stack done key v r depth hopen hkeys
  have hnesting : stack.length + 1 + Value.membersNesting ((k, w) :: ms) =
      max (stack.length + 1 + w.nesting) (stack.length + 1 + Value.membersNesting ms) := by
    simp only [Value.membersNesting]
    omega
  -- the reader puts a member where its key stands; a new key goes to the end, as it was written
  have hdone : ∀ ms', done ++ (key, v) :: ms' = Members.put key v done ++ ms' := fun ms' => by
    rw [put_of_nodup hkeys, List.append_assoc, List.singleton_append]
  have hkeys' : (Members.keys (Members.put key v done ++ (k, w.reread) :: ms)).Nodup := by
    rw [hdone] at hkeys
    simpa only [Members.keys, List.map_append, List.map_cons] using hkeys
  rw [writeMembers_cons_append, hnesting, hdone, Value.rereadMembers]
  obtain ⟨h, hcomma⟩ := next?_cons (c := ',') rfl (style.gap (depth + 1) ++ '"' ::
    (escape k.toList ++ '"' :: (style.colon ++ (write style (depth + 1) w ++
      (writeMembers style (depth + 1) ms ++ (style.gap depth ++ '\x7d' :: r))))))
  obtain ⟨h', hquote⟩ := next?_append (c := '"') (hs.gap (depth + 1)) rfl
    (escape k.toList ++ '"' :: (style.colon ++ (write style (depth + 1) w ++
      (writeMembers style (depth + 1) ms ++ (style.gap depth ++ '\x7d' :: r)))))
  obtain ⟨bs', hb', h'', hkey⟩ := exists_readKey hs k (write style (depth + 1) w ++
    (writeMembers style (depth + 1) ms ++ (style.gap depth ++ '\x7d' :: r)))
  rw [goOn_nextMember hcomma hquote hkey]
  have hvalue := hread (.members (Members.put key v done) k :: stack) bs' _ (depth + 1) hopen hb'
    (endsNumber_writeMembers hs (depth + 1) ms depth r)
  exact hvalue.trans (hmembers stack (Members.put key v done) k w.reread r depth hopen hkeys')

/-! ## Whole documents -/

mutual

theorem readsBack (hs : style.Readable) : (v : Value) → v.Every Value.Regular → ReadsBack style v
  | .null, _ => readsBack_word (c := 'n') rfl rfl (fun _ => rfl) rfl rfl
  | .boolean true, _ => readsBack_word (c := 't') rfl rfl (fun _ => rfl) rfl rfl
  | .boolean false, _ => readsBack_word (c := 'f') rfl rfl (fun _ => rfl) rfl rfl
  | .number _, hv => readsBack_number hv.self.integer
  | .string s, _ => readsBack_string s
  | .array [], _ => readsBack_emptyArray
  | .array (v :: vs), hv => by
    obtain ⟨hv, hvs⟩ := List.forall_mem_cons.1 (Value.every_array.1 hv).2
    exact readsBack_array hs hv.self (readsBack hs v hv) (itemsReadBack hs vs hvs)
  | .object [], _ => readsBack_emptyObject
  | .object ((k, v) :: ms), hv => by
    have hkeys : (Members.keys ((k, v) :: ms)).Nodup := hv.self.keys
    have hmem : ∀ m ∈ (k, v) :: ms, m.2.Every Value.Regular := fun m hm =>
      (Value.every_object.1 hv).2 m.1 m.2 (Members.find?_of_mem hkeys hm)
    obtain ⟨hv, hms⟩ := List.forall_mem_cons.1 hmem
    exact readsBack_object hs hkeys (readsBack hs v hv) (membersReadBack hs ms hms)

theorem itemsReadBack (hs : style.Readable) : (vs : List Value) →
    (∀ v ∈ vs, v.Every Value.Regular) → ItemsReadBack style vs
  | [], _ => itemsReadBack_nil hs
  | v :: vs, h => by
    obtain ⟨hv, hvs⟩ := List.forall_mem_cons.1 h
    exact itemsReadBack_cons hs hv.self (readsBack hs v hv) (itemsReadBack hs vs hvs)

theorem membersReadBack (hs : style.Readable) : (ms : List (String × Value)) →
    (∀ m ∈ ms, m.2.Every Value.Regular) → MembersReadBack style ms
  | [], _ => membersReadBack_nil hs
  | (k, v) :: ms, h => by
    obtain ⟨hv, hms⟩ := List.forall_mem_cons.1 h
    exact membersReadBack_cons hs (readsBack hs v hv) (membersReadBack hs ms hms)

end

end Json

open Json (print maxOpen)

theorem Value.every_writable {v : Value} (hv : v.Every Regular) (hfrac : v.Every FractionSurvives) :
    v.Every Writable :=
  fun l c hc => ⟨hv l c hc, hfrac l c hc⟩

theorem Value.Every.regular {v : Value} (hv : v.Every Writable) : v.Every Regular :=
  fun l c hc => (hv l c hc).toRegular

mutual

theorem Value.reread_eq_self : (v : Value) → v.Every Writable → v.reread = v
  | .null, _ => rfl
  | .boolean _, _ => rfl
  | .string _, _ => rfl
  | .number _, hv => Number.reread_eq_self hv.self.integer hv.self.fraction
  | .array vs, hv => congrArg array (rereadItems_eq_self vs (every_array.1 hv).2)
  | .object ms, hv => congrArg object (rereadMembers_eq_self ms fun m hm =>
      (every_object.1 hv).2 m.1 m.2 (Members.find?_of_mem hv.self.keys hm))

theorem Value.rereadItems_eq_self :
    (vs : List Value) → (∀ v ∈ vs, v.Every Writable) → rereadItems vs = vs
  | [], _ => rfl
  | v :: vs, h => by
    obtain ⟨hv, hvs⟩ := List.forall_mem_cons.1 h
    rw [rereadItems, reread_eq_self v hv, rereadItems_eq_self vs hvs]

theorem Value.rereadMembers_eq_self :
    (ms : List (String × Value)) → (∀ m ∈ ms, m.2.Every Writable) → rereadMembers ms = ms
  | [], _ => rfl
  | (k, v) :: ms, h => by
    obtain ⟨hv, hms⟩ := List.forall_mem_cons.1 h
    rw [rereadMembers, reread_eq_self v hv, rereadMembers_eq_self ms hms]

end

/-- The reader's answer to the whole of a written document. -/
theorem Json.opens_write {style : Style} (hs : style.Readable) {v : Value}
    (hv : v.Every Value.Regular) :
    Opens v.nesting (readValue [] (write style 0 v)) (.ok v.reread) := by
  have h := readsBack hs v hv [] [] [] 0 (Nat.zero_le _) (List.forall_mem_nil _)
    (by simp [Numeral.EndsNumber])
  rwa [goOn_end (List.forall_mem_nil _), List.nil_append, List.append_nil, List.length_nil,
    Nat.zero_add] at h

theorem opens_print {v : Value} (hv : v.Every Value.Regular) :
    Json.Opens v.nesting (Json.readValue [] (print v).toList) (.ok v.reread) := by
  rw [print, String.toList_ofList]
  exact Json.opens_write Json.indented_readable hv

theorem readDocument_printLine {v : Value} (hv : v.Every Value.Writable)
    (hn : v.nesting ≤ maxOpen) : readDocument (Json.printLine v) = .ok v := by
  have h := Json.opens_write Json.compact_readable hv.regular
  rw [Json.Opens, if_pos hn, Value.reread_eq_self v hv] at h
  rw [readDocument_eq_ok_iff, Json.printLine, String.toList_ofList]
  exact h

theorem readDocument_print_reread {v : Value} (hv : v.Every Value.Regular)
    (hn : v.nesting ≤ maxOpen) : readDocument (print v) = .ok v.reread := by
  have h := opens_print hv
  rw [Json.Opens, if_pos hn] at h
  exact readDocument_eq_ok_iff.2 h

theorem readDocument_print {v : Value} (hv : v.Every Value.Writable) (hn : v.nesting ≤ maxOpen) :
    readDocument (print v) = .ok v := by
  rw [readDocument_print_reread hv.regular hn, Value.reread_eq_self v hv]

/-- Where the reader refuses, fractions do not matter. -/
theorem readDocument_print_refused {v : Value} (hv : v.Every Value.Regular)
    (hn : maxOpen < v.nesting) :
    ∃ position, readDocument (print v) = .error (.malformed ⟨.tooDeep, position⟩) := by
  have h := opens_print hv
  rw [Json.Opens, if_neg (Nat.not_le.2 hn)] at h
  obtain ⟨unread, h⟩ := h
  refine ⟨(Json.Fault.malformed (print v) ⟨.tooDeep, unread⟩).position, ?_⟩
  unfold readDocument Json.read
  rw [h]
  rfl

theorem readDocument_print_tooDeep {v : Value} (hv : v.Every Value.Writable)
    (hn : maxOpen < v.nesting) :
    ∃ position, readDocument (print v) = .error (.malformed ⟨.tooDeep, position⟩) :=
  readDocument_print_refused hv.regular hn

theorem infer_of_readDocument {text : String} {v : Value} (h : readDocument text = .ok v) :
    infer text = v := by
  unfold readDocument at h
  unfold infer
  rcases hr : Json.read text with m | w
  · rw [hr] at h
    cases h
  · rw [hr] at h
    exact Except.ok.inj h

/-- Printed, a document with distinct keys and integers of 64 bits is read back whole, as long as
its fractions survive alone and it nests at most 127 containers. A document that nests more is
refused for this reason. -/
theorem readDocument_print_and_infer_print {v : Value} (hkeys : v.Distinct)
    (hint : v.Every Value.IntegerFits) (hfrac : v.Every Value.FractionSurvives) :
    (v.nesting ≤ 127 → readDocument (print v) = .ok v ∧ infer (print v) = v) ∧
    (127 < v.nesting → ∃ m, readDocument (print v) = .error (.malformed m) ∧
      m.cause.message = "recursion limit exceeded") := by
  have hv := Value.every_writable (fun l c hc => ⟨hkeys l c hc, hint l c hc⟩) hfrac
  refine ⟨fun hn => ?_, fun hn => ?_⟩
  · have hread := readDocument_print hv hn
    exact ⟨hread, infer_of_readDocument hread⟩
  · obtain ⟨position, h⟩ := readDocument_print_tooDeep hv hn
    exact ⟨_, h, rfl⟩

open Json in
theorem fractionSurvives_half : Value.FractionSurvives (.number (.fraction 0.5)) := by
  have hw : Numeral.Writes ['0', '.', '5'] ⟨false, ['0'], ['5'], none⟩ :=
    ⟨['.', '5'], [], rfl, .zero, .digits (by decide) (by simp [Numeral.AllDigits]), .absent⟩
  have hx : Numeral.toNumber ⟨false, ['0'], ['5'], none⟩ = .ok (.fraction 0.5) := by
    have hstep : Decimal.shrink (Decimal.floatOfNat 5) 1 = 0.5 := by
      rw [Decimal.shrink, if_pos (by decide)]
      rfl
    have hscaled : Decimal.scaled 5 (-1) = some 0.5 := congrArg some hstep
    show Numeral.fractionOf false 5 (-1) = _
    rw [Numeral.fractionOf, hscaled]
    rfl
  have hprint : (print (.number (.fraction 0.5))).toList = [] ++ (['0', '.', '5'] ++ []) := by
    rw [print, String.toList_ofList]
    decide +kernel
  refine readDocument_eq_ok_iff.2 ?_
  rw [hprint, readValue_numeral hw hx (List.forall_mem_nil _) (by simp [Numeral.EndsNumber]),
    goOn_end (List.forall_mem_nil _)]

theorem readDocument_print_limits :
    readDocument (print (.object [("limits", .array [.number (.integer (-2 ^ 63)),
        .number (.integer (2 ^ 64 - 1)), .number (.fraction 0.5)]), ("\n", .array [])])) =
      .ok (.object [("limits", .array [.number (.integer (-2 ^ 63)),
        .number (.integer (2 ^ 64 - 1)), .number (.fraction 0.5)]), ("\n", .array [])]) := by
  have hnumber : ∀ {Q : Value → Prop} {x : Number}, Q (.number x) → (Value.number x).Every Q :=
    fun h => (Value.every_scalar (by simp [Value.kind]) (by simp [Value.kind])).2 h
  refine ((readDocument_print_and_infer_print ?_ ?_ ?_).1 (by decide)).1
  · refine Value.every_object_of_mem (by simp [Value.KeysDiffer, Members.keys]) ?_
    have h : ∀ x, (Value.number x).Every Value.KeysDiffer := fun x => hnumber trivial
    simp [Value.every_array, Value.KeysDiffer, h]
  · refine Value.every_object_of_mem trivial ?_
    have hlow := hnumber (x := .integer (-2 ^ 63)) (Q := Value.IntegerFits) ⟨by decide, by decide⟩
    have hhigh := hnumber (x := .integer (2 ^ 64 - 1)) (Q := Value.IntegerFits)
      ⟨by decide, by decide⟩
    have hhalf := hnumber (x := .fraction 0.5) (Q := Value.IntegerFits) trivial
    simpa [Value.every_array, Value.IntegerFits] using ⟨hlow, hhigh, hhalf⟩
  · refine Value.every_object_of_mem trivial ?_
    have hinteger : ∀ n, (Value.number (.integer n)).Every Value.FractionSurvives :=
      fun n => hnumber trivial
    have hhalf := hnumber fractionSurvives_half
    simpa [Value.every_array, Value.FractionSurvives, hinteger] using hhalf

end JsonEdit
