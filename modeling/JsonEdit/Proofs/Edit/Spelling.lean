import JsonEdit.Proofs.Edit.Append
import JsonEdit.Proofs.Edit.Reach

/-!
# Two spellings of an element

* An element of an array that a member holds is written `name[index]` or `name.index`. The first is
  one segment, read with its index; the second is two, and the last one is a name until an array is
  there to store in.
* `Path.Front`: what may stand in front of a path, nothing or a path with a dot.
* `set_of_descendAll_error_append`: what stops the first segments of a path stops the path, and
  only the text that the error quotes is another one.
* Main statement: where the name leads to an array, both spellings replace the same element or miss
  it alike; where nothing can be followed so far, both fail alike.
-/

namespace JsonEdit

/-! ## Reading both spellings -/

theorem Path.IsIndex.spellsIndex {digits : String} {i : Nat} (h : IsIndex digits.toList i) :
    SpellsIndex digits i :=
  ⟨_, h.ne_nil, h.digits, .inl rfl, h.value, h.bound⟩

theorem readPath_of_writes {text : String} {s : Segment} (h : s.Writes text.toList) :
    readPath text = .ok ⟨text, [], s⟩ := by
  rw [readPath_eq_ok_iff, Path.parse_eq_ok_iff, List.splitOn_eq_singleton h.dot_not_mem]
  exact ⟨rfl, .cons h .nil⟩

theorem readPath_name {name : String} (h : Path.IsName name.toList) :
    readPath name = .ok ⟨name, [], .key name⟩ := by
  have hwrites := Segment.Writes.name h
  rw [String.ofList_toList] at hwrites
  exact readPath_of_writes hwrites

theorem readPath_element {name digits : String} {i : Nat} (hname : Path.IsName name.toList)
    (hdigits : Path.IsIndex digits.toList i) :
    readPath (name ++ "[" ++ digits ++ "]") =
      .ok ⟨name ++ "[" ++ digits ++ "]", [], .element name i⟩ := by
  have hwrites := Segment.Writes.element hname hdigits
  rw [String.ofList_toList] at hwrites
  refine readPath_of_writes ?_
  rw [Segment.element]
  simpa using hwrites

theorem readPath_item {name digits : String} {i : Nat} (hname : Path.IsName name.toList)
    (hdigits : Path.IsIndex digits.toList i) :
    readPath (name ++ "." ++ digits) =
      .ok ⟨name ++ "." ++ digits, [.key name], .key digits⟩ :=
  readPath_append (readPath_name hname) (readPath_name hdigits.isName)

/-- What may stand in front of a path, with its segments. -/
inductive Path.Front : String → List Segment → Prop where
  | nothing : Front "" []
  | path {a : String} {p : Path} (hp : readPath a = .ok p) : Front (a ++ ".") p.segments

theorem Path.Front.readPath_append {front b : String} {ss : List Segment} {q : Path}
    (h : Front front ss) (hq : readPath b = .ok q) :
    readPath (front ++ b) = .ok ⟨front ++ b, ss ++ q.leading, q.last⟩ := by
  obtain rfl : q.text = b := text_of_parse (readPath_eq_ok_iff.1 hq)
  cases h with
  | nothing =>
    rw [String.empty_append]
    exact hq
  | path hp =>
    rw [JsonEdit.readPath_append hp hq, append, text_of_parse (readPath_eq_ok_iff.1 hp)]

namespace Path

/-- The path `text`, with `name[i]` behind other segments. -/
def toElement (text : String) (ss : List Segment) (name : String) (i : Nat) : Path :=
  ⟨text, ss, .element name i⟩

/-- The path `text`, with `name.digits` behind other segments. -/
def toItem (text : String) (ss : List Segment) (name digits : String) : Path :=
  ⟨text, ss ++ [.key name], .key digits⟩

variable {front name digits : String} {ss : List Segment} {i : Nat}

theorem Front.readPath_element (h : Front front ss) (hname : IsName name.toList)
    (hdigits : IsIndex digits.toList i) :
    readPath (front ++ name ++ "[" ++ digits ++ "]") =
      .ok (toElement (front ++ name ++ "[" ++ digits ++ "]") ss name i) := by
  have htext : front ++ name ++ "[" ++ digits ++ "]" = front ++ (name ++ "[" ++ digits ++ "]") := by
    simp only [String.append_assoc]
  rw [htext, h.readPath_append (JsonEdit.readPath_element hname hdigits), List.append_nil]
  rfl

theorem Front.readPath_item (h : Front front ss) (hname : IsName name.toList)
    (hdigits : IsIndex digits.toList i) :
    readPath (front ++ name ++ "." ++ digits) =
      .ok (toItem (front ++ name ++ "." ++ digits) ss name digits) := by
  have htext : front ++ name ++ "." ++ digits = front ++ (name ++ "." ++ digits) := by
    simp only [String.append_assoc]
  rw [htext, h.readPath_append (JsonEdit.readPath_item hname hdigits)]
  rfl

theorem base_toItem (text : String) (ss : List Segment) (name digits : String) :
    (toItem text ss name digits).base = ss.flatMap Segment.steps ++ [.key name] := by
  rw [base, toItem, List.flatMap_append]
  rfl

theorem segments_toItem (text : String) (ss : List Segment) (name digits : String) :
    (toItem text ss name digits).segments = ss ++ [.key name, .key digits] := by
  rw [segments, toItem, List.append_assoc]
  rfl

end Path

/-! ## Storing with both spellings -/

open JsonEdit.Path (toElement toItem base_toItem segments_toItem)

section

variable {name digits text : String} {ss rest : List Segment} {s : Segment} {i : Nat}
  {t c v : Value} {vs : List Value} {ms : List (String × Value)} {p : Path} {e : EditError}

theorem set_of_descendAll_error_append (hp : p.segments = ss ++ s :: rest)
    (h : descendAll text 0 ss t = .error e) : t.set p v = .error (e.behind p.text 0) := by
  obtain ⟨before, s', rest', c, rfl, hc, he⟩ := descendAll_eq_error_iff.1 h
  have hne : rest' ++ s :: rest ≠ [] := by simp
  have hob := ((descend_eq_error_iff hne).1 he).behind p.text 0
  rw [Nat.zero_add, Nat.zero_add] at hob
  have hstopped : p.StoppedAt t before.length (e.behind p.text 0) := by
    refine ⟨before, s', rest' ++ s :: rest, c, ?_, rfl, hc, hob⟩
    rw [hp, List.append_assoc, List.cons_append]
  exact hstopped.set_eq

theorem exists_find?_of_get?_concat_key {b : Location} (h : t.get? (b ++ [.key name]) = some c) :
    ∃ ms, t.get? b = some (.object ms) ∧ Members.find? name ms = some c := by
  rw [Value.get?_append, Option.bind_eq_some_iff] at h
  obtain ⟨d, hd, hc⟩ := h
  rw [Value.get?_singleton] at hc
  obtain ⟨ms, rfl, hm⟩ := Location.object_of_child? hc
  exact ⟨ms, hd, hm⟩

theorem set_toElement_of_lt
    (hc : t.get? (ss.flatMap Segment.steps ++ [.key name]) = some (.array vs))
    (hi : i < vs.length) :
    t.set (toElement text ss name i) v =
      .ok (t.put (ss.flatMap Segment.steps ++ [.key name]) (.array (vs.set i v))) := by
  obtain ⟨ms, hms, hm⟩ := exists_find?_of_get?_concat_key hc
  rw [Value.put_append hms, Value.put_key (Members.mem_keys_of_find? hm)]
  exact set_eq_ok_iff.2 ⟨_, _, _, hms, .element rfl hm hi, rfl⟩

theorem set_toElement_of_le
    (hc : t.get? (ss.flatMap Segment.steps ++ [.key name]) = some (.array vs))
    (hi : vs.length ≤ i) :
    t.set (toElement text ss name i) v = .error (.outOfRange text ss.length i vs.length) := by
  obtain ⟨ms, hms, hm⟩ := exists_find?_of_get?_concat_key hc
  exact (set_of_get?_base hms).2 (.elementPastEnd rfl hm hi)

theorem set_toItem_of_lt (hdigits : SpellsIndex digits i)
    (hc : t.get? (ss.flatMap Segment.steps ++ [.key name]) = some (.array vs))
    (hi : i < vs.length) :
    t.set (toItem text ss name digits) v =
      .ok (t.put (ss.flatMap Segment.steps ++ [.key name]) (.array (vs.set i v))) := by
  rw [← base_toItem text ss name digits] at hc ⊢
  exact set_eq_ok_iff.2 ⟨_, _, _, hc, .item rfl hdigits hi, rfl⟩

theorem set_toItem_of_le (hdigits : SpellsIndex digits i)
    (hc : t.get? (ss.flatMap Segment.steps ++ [.key name]) = some (.array vs))
    (hi : vs.length ≤ i) :
    t.set (toItem text ss name digits) v =
      .error (.outOfRange text (ss.length + 1) i vs.length) := by
  rw [← base_toItem text ss name digits] at hc
  have herror := (set_of_get?_base (v := v) hc).2 (.itemPastEnd rfl rfl hdigits hi)
  rwa [Path.lastPosition, toItem, List.length_append, List.length_singleton] at herror

theorem set_toElement_of_not_mem (hc : t.get? (ss.flatMap Segment.steps) = some (.object ms))
    (hm : name ∉ Members.keys ms) :
    t.set (toElement text ss name i) v = .error (.notFound text ss.length name) :=
  (set_of_get?_base hc).2 (.missing hm (.inr (Option.some_ne_none i)))

theorem set_toItem_of_not_mem (hc : t.get? (ss.flatMap Segment.steps) = some (.object ms))
    (hm : name ∉ Members.keys ms) :
    t.set (toItem text ss name digits) v = .error (.notFound text ss.length name) := by
  have hstopped : (toItem text ss name digits).StoppedAt t ss.length
      (.notFound text ss.length name) :=
    ⟨ss, .key name, [.key digits], .object ms, segments_toItem .., rfl, hc,
      .missing hm (.inl (List.cons_ne_nil _ _))⟩
  exact hstopped.set_eq

end

/-- An element of an array that a member holds may be written with brackets or behind a dot. Where
the name and all before it can be followed to an array, both spellings replace the same element, or
both report the index and the length of the array, the second spelling one segment further on. Where
what stands before the name cannot be followed, or leads to an object without this name, they fail
alike but for the text that they quote. -/
theorem set_element_and_set_item {front name digits : String} {ss : List Segment} {i : Nat}
    (hfront : Path.Front front ss) (hname : Path.IsName name.toList)
    (hdigits : Path.IsIndex digits.toList i) (t v : Value) :
    ∃ p q, readPath (front ++ name ++ "[" ++ digits ++ "]") = .ok p ∧
      readPath (front ++ name ++ "." ++ digits) = .ok q ∧
      p.segments = ss ++ [.element name i] ∧ q.segments = ss ++ [.key name, .key digits] ∧
      (∀ text l vs, descendAll text 0 (ss ++ [.key name]) t = .ok (l, .array vs) →
        (i < vs.length ∧ t.set p v = .ok (t.put l (.array (vs.set i v))) ∧
          t.set q v = .ok (t.put l (.array (vs.set i v)))) ∨
        vs.length ≤ i ∧ t.set p v = .error (.outOfRange p.text ss.length i vs.length) ∧
          t.set q v = .error (.outOfRange q.text (ss.length + 1) i vs.length)) ∧
      (∀ text e, descendAll text 0 ss t = .error e →
        t.set p v = .error (e.behind p.text 0) ∧ t.set q v = .error (e.behind q.text 0)) ∧
      ∀ text l ms, descendAll text 0 ss t = .ok (l, .object ms) → name ∉ Members.keys ms →
        t.set p v = .error (.notFound p.text ss.length name) ∧
          t.set q v = .error (.notFound q.text ss.length name) := by
  have hindex : SpellsIndex digits i := hdigits.spellsIndex
  refine ⟨_, _, hfront.readPath_element hname hdigits, hfront.readPath_item hname hdigits, rfl,
    segments_toItem .., fun text l vs hd => ?_, fun text e he => ⟨?_, ?_⟩,
    fun text l ms hd hm => ?_⟩
  · obtain ⟨rfl, hc⟩ := descendAll_eq_ok_iff.1 hd
    rw [List.flatMap_append] at hc ⊢
    rcases Nat.lt_or_ge i vs.length with hi | hi
    · exact .inl ⟨hi, set_toElement_of_lt hc hi, set_toItem_of_lt hindex hc hi⟩
    · exact .inr ⟨hi, set_toElement_of_le hc hi, set_toItem_of_le hindex hc hi⟩
  · exact set_of_descendAll_error_append rfl he
  · exact set_of_descendAll_error_append (segments_toItem ..) he
  · obtain ⟨rfl, hc⟩ := descendAll_eq_ok_iff.1 hd
    exact ⟨set_toElement_of_not_mem hc hm, set_toItem_of_not_mem hc hm⟩

theorem set_element_and_set_item_behind_member :
    ∃ p q, readPath "a.xs[01]" = .ok p ∧ readPath "a.xs.01" = .ok q ∧
      (Value.object [("a", .object [("xs", .array [.null, .null])])]).set p (.boolean true) =
        .ok (.object [("a", .object [("xs", .array [.null, .boolean true])])]) ∧
      (Value.object [("a", .object [("xs", .array [.null, .null])])]).set q (.boolean true) =
        .ok (.object [("a", .object [("xs", .array [.null, .boolean true])])]) := by
  have hmember : readPath "a" = .ok ⟨"a", [], .key "a"⟩ := rfl
  have hfront : Path.Front "a." [.key "a"] := .path hmember
  have hname : Path.IsName "xs".toList := ⟨by decide, by simp⟩
  have hdigits : Path.IsIndex "01".toList 1 := ⟨by decide, by simp, by decide, by decide⟩
  obtain ⟨p, q, hp, hq, -, -, harray, -⟩ := set_element_and_set_item hfront hname hdigits
    (.object [("a", .object [("xs", .array [.null, .null])])]) (.boolean true)
  rcases harray "a.xs" _ _ rfl with ⟨-, hset, hset'⟩ | ⟨hi, -⟩
  · exact ⟨p, q, hp, hq, hset, hset'⟩
  · exact absurd hi (by decide)

end JsonEdit
