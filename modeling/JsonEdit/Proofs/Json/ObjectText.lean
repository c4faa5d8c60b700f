import JsonEdit.Proofs.Json.Excerpt
import Mathlib.Data.List.Induction

/-!
# Texts of objects

* `WritesObject s ms`: the text `s` writes an object with the members `ms`, in this order and with
  every repetition. The key and the value of a member are texts that may stand alone.
* `exists_writesObject_of_readValue`: only such texts are read as objects.
* `WritesObject.gives`: such a text is read as the object that has each of these keys once, where
  it stands first and with the value it has last (`keys_merge`, `find?_merge`), unless the reader
  refuses it as too deep.
-/

namespace JsonEdit

/-! ## Repeated keys -/

namespace Members

variable {κ α : Type} [DecidableEq κ]

/-- The members that are left when some are put behind `done` one after another. -/
def mergeOnto (done ms : List (κ × α)) : List (κ × α) :=
  ms.foldl (fun done m => put m.1 m.2 done) done

/-- The members that are left of some with repeated keys. -/
def merge (ms : List (κ × α)) : List (κ × α) :=
  mergeOnto [] ms

theorem merge_concat (ms : List (κ × α)) (m : κ × α) :
    merge (ms ++ [m]) = put m.1 m.2 (merge ms) := by
  unfold merge mergeOnto
  rw [List.foldl_append]
  rfl

/-- Every key is kept once, where it stands first. -/
theorem keys_merge (ms : List (κ × α)) : keys (merge ms) = (keys ms).eraseDups := by
  induction ms using List.reverseRecOn with
  | nil => rfl
  | append_singleton ms m ih =>
    have hkeys : keys (ms ++ [m]) = keys ms ++ [m.1] := List.map_append
    rw [merge_concat, keys_put, ih, hkeys, List.eraseDups_append]
    by_cases hm : m.1 ∈ keys ms
    · have hdrop : [m.1].removeAll (keys ms) = [] := by simp [List.removeAll, hm]
      rw [if_pos (List.mem_eraseDups.2 hm), hdrop, List.eraseDups_nil, List.append_nil]
    · have hkeep : [m.1].removeAll (keys ms) = [m.1] := by simp [List.removeAll, hm]
      rw [if_neg fun h => hm (List.mem_eraseDups.1 h), hkeep]
      rfl

theorem find?_merge (key : κ) (ms : List (κ × α)) :
    find? key (merge ms) = find? key ms.reverse := by
  induction ms using List.reverseRecOn with
  | nil => rfl
  | append_singleton ms m ih =>
    rw [merge_concat, find?_put, ih, List.reverse_append, List.reverse_singleton,
      List.singleton_append]
    by_cases hkey : key = m.1
    · subst hkey
      rw [if_pos rfl, find?_cons_self]
    · rw [if_neg hkey, find?_cons_of_ne fun h => hkey h.symm]

end Members

namespace Json

/-! ## Written members -/

/-- A text of a string, a colon, and a text of the value. -/
def WritesMember (s : List Char) (m : String × Value) : Prop :=
  ∃ x y, s = x ++ ':' :: y ∧ readValue [] x = .ok (.string m.1) ∧ readValue [] y = .ok m.2

/-- One member or more, with commas between them. -/
inductive WritesMembers : List Char → List (String × Value) → Prop where
  | last {s : List Char} {m : String × Value} (h : WritesMember s m) : WritesMembers s [m]
  | more {s t : List Char} {m : String × Value} {ms : List (String × Value)}
    (h : WritesMember s m) (hms : WritesMembers t ms) : WritesMembers (s ++ ',' :: t) (m :: ms)

/-- Members in braces. -/
inductive WritesObject : List Char → List (String × Value) → Prop where
  | empty {bs cs ds : List Char} (hb : AllBlank bs) (hc : AllBlank cs) (hd : AllBlank ds) :
    WritesObject (bs ++ '\x7b' :: (cs ++ '\x7d' :: ds)) []
  | members {bs s ds : List Char} {ms : List (String × Value)} (hb : AllBlank bs)
    (hms : WritesMembers s ms) (hd : AllBlank ds) :
    WritesObject (bs ++ '\x7b' :: (s ++ '\x7d' :: ds)) ms

theorem WritesMember.exists_key {s : List Char} {m : String × Value} (h : WritesMember s m) :
    ∃ bs k y, s = bs ++ '"' :: (k ++ y) ∧ AllBlank bs ∧ Takes readKey k m.1 ∧
      readValue [] y = .ok m.2 := by
  obtain ⟨x, y, rfl, hx, hy⟩ := h
  obtain ⟨bs, q, cs, rfl, hb, hq, hc⟩ := exists_quoted_of_readValue hx
  exact ⟨bs, q ++ (cs ++ [':']), y, by simp, hb, hq.readKey hc, hy⟩

/-! ## Written members are read -/

/-- The reader gives `v`, or refuses the text as too deep. -/
def Gives (x : Except Fault Value) (v : Value) : Prop :=
  x = .ok v ∨ ∃ unread, x = .error ⟨.tooDeep, unread⟩

theorem Reaches.gives {base : List Frame} {x y : Except Fault Value} {v : Value}
    (h : Reaches base x y) (hy : Gives y v) : Gives x v := by
  rcases h with rfl | ⟨-, htooDeep⟩
  · exact hy
  · exact .inr htooDeep

/-- The key of a member is found, and its value is read up to what follows the member. -/
theorem WritesMember.reads {s t : List Char} {m : String × Value} (h : WritesMember s m)
    (ht : Numeral.EndsNumber t) (done : List (String × Value)) :
    ∃ r u hr hu, next? (s ++ t) = some ('"', ⟨r, hr⟩) ∧ readKey r = .ok (m.1, ⟨u, hu⟩) ∧
      Reaches [.members done m.1] (readValue [.members done m.1] u)
        (goOn [.members done m.1] m.2 t) := by
  obtain ⟨bs, k, y, rfl, hb, hk, hy⟩ := h.exists_key
  have htext : bs ++ '"' :: (k ++ y) ++ t = bs ++ '"' :: (k ++ (y ++ t)) := by simp
  rw [htext]
  obtain ⟨h₁, e₁⟩ := next?_append (c := '"') hb rfl (k ++ (y ++ t))
  obtain ⟨h₂, e₂⟩ := hk (y ++ t)
  exact ⟨k ++ (y ++ t), y ++ t, h₁, h₂, e₁, e₂,
    reaches_readValue [.members done m.1] [] y ht hy⟩

theorem WritesMembers.gives {s ds : List Char} {ms : List (String × Value)}
    (h : WritesMembers s ms) (hd : AllBlank ds) (done : List (String × Value)) :
    ∃ key r u hr hu, next? (s ++ '\x7d' :: ds) = some ('"', ⟨r, hr⟩) ∧
      readKey r = .ok (key, ⟨u, hu⟩) ∧
      Gives (readValue [.members done key] u) (.object (Members.mergeOnto done ms)) := by
  induction h generalizing done with
  | @last s m h =>
    obtain ⟨r, u, hr, hu, hnext, hkey, hreaches⟩ :=
      h.reads (endsNumber_cons (.inr (.inr rfl)) ds) done
    refine ⟨m.1, r, u, hr, hu, hnext, hkey, hreaches.gives (.inl ?_)⟩
    obtain ⟨h₁, e₁⟩ := next?_cons (c := '\x7d') rfl ds
    rw [goOn_closeObject e₁, goOn_end hd]
    rfl
  | @more s t m ms h hms ih =>
    obtain ⟨r, u, hr, hu, hnext, hkey, hreaches⟩ :=
      h.reads (endsNumber_cons (.inl rfl) (t ++ '\x7d' :: ds)) done
    rw [List.append_assoc, List.cons_append]
    refine ⟨m.1, r, u, hr, hu, hnext, hkey, hreaches.gives ?_⟩
    obtain ⟨key', r', u', hr', hu', hnext', hkey', hgives⟩ := ih (Members.put m.1 m.2 done)
    obtain ⟨h₁, e₁⟩ := next?_cons (c := ',') rfl (t ++ '\x7d' :: ds)
    rw [goOn_nextMember e₁ hnext' hkey']
    exact hgives

theorem WritesObject.gives {s : List Char} {ms : List (String × Value)} (h : WritesObject s ms) :
    Gives (readValue [] s) (.object (Members.merge ms)) := by
  cases h with
  | @empty bs cs ds hb hc hd =>
    obtain ⟨h₁, e₁⟩ := next?_append (c := '\x7b') hb rfl (cs ++ '\x7d' :: ds)
    obtain ⟨h₂, e₂⟩ := next?_append (c := '\x7d') hc rfl ds
    rw [readValue_emptyObject e₁ (by decide) e₂, goOn_end hd]
    exact .inl rfl
  | @members bs s ds ms hb hms hd =>
    obtain ⟨key, r, u, hr, hu, hnext, hkey, hgives⟩ := hms.gives hd []
    obtain ⟨h₁, e₁⟩ := next?_append (c := '\x7b') hb rfl (s ++ '\x7d' :: ds)
    rw [readValue_object e₁ (by decide) hnext hkey]
    exact hgives

/-! ## What is read was written -/

theorem readValue_append_blank {s bs : List Char} {v : Value} (h : readValue [] s = .ok v)
    (hb : AllBlank bs) : readValue [] (s ++ bs) = .ok v := by
  rcases reaches_readValue [] [] s (endsNumber_of_allBlank hb) h with hread | ⟨hne, -⟩
  · exact hread.trans (goOn_end hb)
  · exact absurd rfl hne

theorem exists_key_of_readKey {s r u : List Char} {key : String} {h : r.length < s.length}
    {h' : u.length < r.length} (hs : next? s = some ('"', ⟨r, h⟩))
    (hkey : readKey r = .ok (key, ⟨u, h'⟩)) :
    ∃ x, s = x ++ ':' :: u ∧ readValue [] x = .ok (.string key) := by
  obtain ⟨bs, rfl, hb, -⟩ := exists_blank_of_next? hs
  obtain ⟨q, cs, rfl, hq, hc⟩ := exists_quoted_of_readKey hkey
  exact ⟨bs ++ '"' :: (q ++ cs), by simp, (WritesScalar.string hq).readValue hb hc⟩

theorem exists_of_goOn_members {done : List (String × Value)} {key : String} {v w : Value}
    {s : List Char} (h : goOn [.members done key] v s = .ok w) :
    ∃ bs, AllBlank bs ∧
      ((∃ ds, s = bs ++ '\x7d' :: ds ∧ AllBlank ds) ∨
        ∃ x u key', s = bs ++ ',' :: (x ++ ':' :: u) ∧ readValue [] x = .ok (.string key') ∧
          readValue [.members (Members.put key v done) key'] u = .ok w) := by
  revert h
  generalize hstack : [Frame.members done key] = stack
  fun_cases goOn stack v s with
  | case10 done' key' stack r hr hs =>
    intro h
    obtain ⟨-, rfl⟩ := List.cons.inj hstack
    obtain ⟨bs, rfl, hb, -⟩ := exists_blank_of_next? hs
    exact ⟨bs, hb, .inl ⟨r, rfl, (goOn_nil_eq_ok_iff.1 h).1⟩⟩
  | case13 done' key' stack r hr r' hr' key'' r'' hr'' hkey hs hc hnext =>
    intro h
    obtain ⟨hframe, rfl⟩ := List.cons.inj hstack
    obtain ⟨rfl, rfl⟩ := Frame.members.inj hframe
    obtain ⟨bs, rfl, hb, -⟩ := exists_blank_of_next? hs
    obtain ⟨x, rfl, hx⟩ := exists_key_of_readKey hnext hkey
    exact ⟨bs, hb, .inr ⟨x, r'', key'', rfl, hx, h⟩⟩
  | case1 => simp at hstack
  | case4 => simp at hstack
  | case7 => simp at hstack
  | _ => simp

/-- Behind the colon of a member, a text of its value and the other members follow. -/
theorem exists_writesMembers_of_readValue {done : List (String × Value)} {key : String} {w : Value}
    (s : List Char) (h : readValue [.members done key] s = .ok w) :
    ∃ t ds ms, s = t ++ '\x7d' :: ds ∧ AllBlank ds ∧
      ∀ x, readValue [] x = .ok (.string key) → WritesMembers (x ++ ':' :: t) ms := by
  obtain ⟨y, t, v, hs, hy, ht⟩ := exists_excerpt_of_readValue [] s rfl h
  -- blanks behind the value are counted as part of its text
  obtain ⟨bs, hb, ⟨ds, rfl, hd⟩ | ⟨x, u, key', rfl, hx, hu⟩⟩ := exists_of_goOn_members ht
  · refine ⟨y ++ bs, ds, [(key, v)], by simp [hs], hd, fun x hx => ?_⟩
    exact .last ⟨x, y ++ bs, rfl, hx, readValue_append_blank hy hb⟩
  · have hlength : u.length < s.length := by
      simp only [hs, List.length_append, List.length_cons]
      omega
    obtain ⟨t, ds, ms, rfl, hd, hms⟩ := exists_writesMembers_of_readValue u hu
    refine ⟨y ++ bs ++ ',' :: (x ++ ':' :: t), ds, (key, v) :: ms, by simp [hs], hd,
      fun x' hx' => ?_⟩
    have hmember : WritesMember (x' ++ ':' :: (y ++ bs)) (key, v) :=
      ⟨x', y ++ bs, rfl, hx', readValue_append_blank hy hb⟩
    simpa using WritesMembers.more hmember (hms x hx)
termination_by s.length

theorem exists_writesObject_of_readValue {s : List Char} {ms : List (String × Value)}
    (h : readValue [] s = .ok (.object ms)) : ∃ written, WritesObject s written := by
  revert h
  generalize hstack : [] = stack
  fun_cases readValue stack s with
  | case2 v r hr hs =>
    intro h
    subst hstack
    obtain ⟨-, rfl⟩ := goOn_nil_eq_ok_iff.1 h
    rcases scalar_of_readOpening hs with (hv | ⟨b, hv⟩) | ⟨text, hv⟩ | ⟨x, t, h', hx, hv⟩
    all_goals cases hv
  | case4 =>
    intro h
    subst hstack
    obtain ⟨-, hv⟩ := goOn_nil_eq_ok_iff.1 h
    cases hv
  | case5 r hr hs hopen c r' hr' hnext hc =>
    intro h
    subst hstack
    cases kind_of_readValue r h
  | case8 r hr hs hopen r' hr' hclose =>
    intro h
    subst hstack
    obtain ⟨bs, rfl, hb⟩ := exists_brace_of_readOpening hs
    obtain ⟨cs, rfl, hc, -⟩ := exists_blank_of_next? hclose
    exact ⟨[], .empty hb hc (goOn_nil_eq_ok_iff.1 h).1⟩
  | case10 r hr hs hopen r' hr' key r'' hr'' hkey hnext hc =>
    intro h
    subst hstack
    obtain ⟨bs, rfl, hb⟩ := exists_brace_of_readOpening hs
    obtain ⟨x, rfl, hx⟩ := exists_key_of_readKey hnext hkey
    obtain ⟨t, ds, written, rfl, hd, hms⟩ := exists_writesMembers_of_readValue r'' h
    have htext : x ++ ':' :: (t ++ '\x7d' :: ds) = (x ++ ':' :: t) ++ '\x7d' :: ds := by simp
    rw [htext]
    exact ⟨written, .members hb (hms x hx) hd⟩
  | _ => simp

end Json

end JsonEdit
