import JsonEdit.Proofs.Edit.Obstacle
import JsonEdit.Proofs.Path.Append

/-!
# Edits along one path behind another

* `EditError.behind`: an error of the second of two paths, as the two together report it.
* A path behind another stores below what the first one leads to (`set_append`), and meets its
  obstacles there and no others (`Path.StoppedAt.append`).
* Main statement: reading, following and storing all take two texts with a dot between them for the
  one path and then the other.
-/

namespace JsonEdit

/-! ## Errors further on -/

namespace EditError

/-- The error where the path is `text` and its segments stand `n` places further on. -/
def behind (text : String) (n : Nat) : EditError → EditError
  | rejected _ r => .rejected text (r.behind n)
  | unfit _ k m => .unfit text (n + k) m
  | notFound _ k name => .notFound text (n + k) name
  | mismatch _ k expected found => .mismatch text (n + k) expected found
  | outOfRange _ k index length => .outOfRange text (n + k) index length
  | malformed m => .malformed m
  | unwritable s => .unwritable s

variable (text : String) (n : Nat) (e : EditError)

@[simp] theorem segment?_behind : (e.behind text n).segment? = e.segment?.map (n + ·) := by
  cases e <;> rfl

@[simp] theorem path?_behind : (e.behind text n).path? = e.path?.map fun _ => text := by
  cases e <;> rfl

end EditError

variable {text : String} {n : Nat} {s : Segment} {rest : List Segment} {t c c' v : Value}
  {p q : Path} {e : EditError}

theorem Obstacle.behind (h : Obstacle text n s rest c e) (text' : String) (k : Nat) :
    Obstacle text' (k + n) s rest c (e.behind text' k) := by
  cases h with
  | missing hm hneeded => exact .missing hm hneeded
  | notObject hrest hc => exact .notObject hrest hc
  | notArray hs hm hc => exact .notArray hs hm hc
  | notContainer hrest hobject harray => exact .notContainer hrest hobject harray
  | elementPastEnd hs hm hi => exact .elementPastEnd hs hm hi
  | itemPastEnd hrest hs hn hi => exact .itemPastEnd hrest hs hn hi
  | notIndex hrest hs hn => exact .notIndex hrest hs hn
  | indexedItem hrest hs => exact .indexedItem hrest hs

/-! ## Below what a path leads to -/

namespace Path

/-- The steps of all segments. -/
def steps (p : Path) : Location :=
  p.segments.flatMap Segment.steps

theorem base_append (p q : Path) : (p.append q).base = p.steps ++ q.base := by
  simp only [base, append, steps, List.flatMap_append]

theorem StoppedAt.append (hc : t.get? p.steps = some c) (h : q.StoppedAt c n e) :
    (p.append q).StoppedAt t (p.size + n) (e.behind (p.append q).text p.size) := by
  obtain ⟨before, s, rest, d, hsegments, rfl, hd, hob⟩ := h
  refine ⟨p.segments ++ before, s, rest, d, ?_, ?_, ?_, hob.behind _ _⟩
  · rw [segments_append, hsegments, List.append_assoc]
  · rw [List.length_append, length_segments]
  · rw [List.flatMap_append, Value.get?_append]
    show (t.get? p.steps).bind _ = some d
    rw [hc]
    exact hd

end Path

theorem set_append (hc : t.get? p.steps = some c) (h : c.set q v = .ok c') :
    t.set (p.append q) v = .ok (t.put p.steps c') := by
  obtain ⟨d, m, d', hd, hm, rfl⟩ := set_eq_ok_iff.1 h
  refine set_eq_ok_iff.2 ⟨d, m, d', ?_, hm, ?_⟩
  · rw [Path.base_append, Value.get?_append, hc]
    exact hd
  · rw [Path.base_append, Value.put_append hc]

theorem set_append_error (hc : t.get? p.steps = some c) (h : c.set q v = .error e) :
    t.set (p.append q) v = .error (e.behind (p.append q).text p.size) := by
  obtain ⟨n, hn⟩ := exists_stoppedAt h
  exact (hn.append hc).set_eq

theorem exists_set_append_iff (hc : t.get? p.steps = some c) :
    (∃ t', t.set (p.append q) v = .ok t') ↔ ∃ c', c.set q v = .ok c' := by
  constructor
  · rintro ⟨t', ht'⟩
    rcases hset : c.set q v with e | c'
    · rw [set_append_error hc hset] at ht'
      simp at ht'
    · exact ⟨c', rfl⟩
  · rintro ⟨c', hc'⟩
    exact ⟨_, set_append hc hc'⟩

/-! ## Two texts with a dot between them -/

variable {a b : String}

theorem readPath_eq_ok_iff : readPath a = .ok p ↔ Path.parse a = .ok p := by
  rw [readPath, mapError_eq_ok_iff]

theorem readPath_append (hp : readPath a = .ok p) (hq : readPath b = .ok q) :
    readPath (a ++ "." ++ b) = .ok (p.append q) :=
  readPath_eq_ok_iff.2 (Path.parse_append (readPath_eq_ok_iff.1 hp) (readPath_eq_ok_iff.1 hq))

theorem readPath_append_of_error (ha : a ≠ "") (h : readPath a = .error e) :
    (∃ k, e.segment? = some k) ∧
      readPath (a ++ "." ++ b) = .error (e.behind (a ++ "." ++ b) 0) := by
  obtain ⟨r, hr, rfl⟩ := mapError_eq_error_iff.1 h
  obtain ⟨hposition, happend⟩ := Path.parse_append_of_error (b := b) ha hr
  refine ⟨hposition, mapError_eq_error_iff.2 ⟨r, happend, ?_⟩⟩
  rw [EditError.behind, Path.Rejection.behind_zero]

theorem readPath_append_error (hp : readPath a = .ok p) (hb : b ≠ "") (h : readPath b = .error e) :
    (∃ k, e.segment? = some k) ∧
      readPath (a ++ "." ++ b) = .error (e.behind (a ++ "." ++ b) p.size) := by
  obtain ⟨r, hr, rfl⟩ := mapError_eq_error_iff.1 h
  obtain ⟨hposition, happend⟩ := Path.parse_append_error (readPath_eq_ok_iff.1 hp) hb hr
  exact ⟨hposition, mapError_eq_error_iff.2 ⟨_, happend, rfl⟩⟩

theorem exists_readPath_append_iff (ha : a ≠ "") (hb : b ≠ "") :
    (∃ r, readPath (a ++ "." ++ b) = .ok r) ↔
      (∃ p, readPath a = .ok p) ∧ ∃ q, readPath b = .ok q := by
  constructor
  · rintro ⟨r, hr⟩
    rcases hp : readPath a with e | p
    · rw [(readPath_append_of_error ha hp).2] at hr
      simp at hr
    · rcases hq : readPath b with e | q
      · rw [(readPath_append_error hp hb hq).2] at hr
        simp at hr
      · exact ⟨⟨p, rfl⟩, q, rfl⟩
  · rintro ⟨⟨p, hp⟩, q, hq⟩
    exact ⟨_, readPath_append hp hq⟩

/-- Two texts with a dot between them are a path just when both are paths, and otherwise the first
segment that cannot be read is reported where it stands in the whole. The path first follows the
segments of the first text; from the value that they lead to, it stores as the second path does, and
fails as that one does, with the place of the segment counted in the whole path. -/
theorem readPath_append_and_set_append (a b : String) (ha : a ≠ "") (hb : b ≠ "") :
    ((∃ r, readPath (a ++ "." ++ b) = .ok r) ↔
      (∃ p, readPath a = .ok p) ∧ ∃ q, readPath b = .ok q) ∧
    (∀ e, readPath a = .error e → (∃ k, e.segment? = some k) ∧
      readPath (a ++ "." ++ b) = .error (e.behind (a ++ "." ++ b) 0)) ∧
    (∀ p e, readPath a = .ok p → readPath b = .error e → (∃ k, e.segment? = some k) ∧
      readPath (a ++ "." ++ b) = .error (e.behind (a ++ "." ++ b) p.size)) ∧
    ∀ p q, readPath a = .ok p → readPath b = .ok q →
      ∃ r, readPath (a ++ "." ++ b) = .ok r ∧ r.segments = p.segments ++ q.segments ∧
        ∀ t l c v, descendAll a 0 p.segments t = .ok (l, c) →
          t.get? l = some c ∧
          ((∃ t', t.set r v = .ok t') ↔ ∃ c', c.set q v = .ok c') ∧
          (∀ c', c.set q v = .ok c' → t.set r v = .ok (t.put l c')) ∧
          ∀ e, c.set q v = .error e →
            (∃ k, e.segment? = some k) ∧ e.path? = some b ∧
              t.set r v = .error (e.behind (a ++ "." ++ b) p.size) := by
  refine ⟨exists_readPath_append_iff ha hb, fun e he => readPath_append_of_error ha he,
    fun p e hp he => readPath_append_error hp hb he, fun p q hp hq => ?_⟩
  refine ⟨p.append q, readPath_append hp hq, Path.segments_append p q, fun t l c v hd => ?_⟩
  obtain ⟨rfl, hc⟩ := descendAll_eq_ok_iff.1 hd
  have hatext : p.text = a := Path.text_of_parse (readPath_eq_ok_iff.1 hp)
  have hbtext : q.text = b := Path.text_of_parse (readPath_eq_ok_iff.1 hq)
  refine ⟨hc, exists_set_append_iff hc, fun c' hc' => set_append hc hc', fun e he => ?_⟩
  obtain ⟨n, hn⟩ := exists_stoppedAt he
  refine ⟨⟨n, hn.segment?⟩, hbtext ▸ hn.path?, ?_⟩
  rw [set_append_error hc he, Path.append, hatext, hbtext]

theorem set_append_element :
    ("a" ≠ "" ∧ "b[1]" ≠ "") ∧ ∃ r, readPath "a.b[1]" = .ok r ∧
      r.segments = [.key "a", .element "b" 1] ∧
      (Value.object [("a", .object [("b", .array [.null, .null])])]).set r (.boolean true) =
        .ok (.object [("a", .object [("b", .array [.null, .boolean true])])]) ∧
      (Value.object [("a", .object [("b", .array [.null])])]).set r (.boolean true) =
        .error (.outOfRange "a.b[1]" 1 1 1) := by
  have ha : readPath "a" = .ok ⟨"a", [], .key "a"⟩ := rfl
  have hb : readPath "b[1]" = .ok ⟨"b[1]", [], .element "b" 1⟩ := rfl
  obtain ⟨r, hr, hsegments, hset⟩ :=
    (readPath_append_and_set_append "a" "b[1]" (by decide) (by decide)).2.2.2 _ _ ha hb
  have hlong :=
    hset (.object [("a", .object [("b", .array [.null, .null])])]) _ _ (.boolean true) rfl
  have hshort := hset (.object [("a", .object [("b", .array [.null])])]) _ _ (.boolean true) rfl
  exact ⟨⟨by decide, by decide⟩, r, hr, hsegments, hlong.2.2.1 _ rfl, (hshort.2.2.2 _ rfl).2.2⟩

end JsonEdit
