import JsonEdit.Proofs.Edit.Reread
import JsonEdit.Proofs.Json.Acceptance

/-!
# Printed documents are JSON

* What stands for a scalar, or for a key, is one of the grammar's texts for it (`isScalar_write`,
  `isString_quote`).
* `Bracket.Continues`: a text goes on behind one part of a container with the others. The commas and
  gaps that are written between parts lead from one such text to the next.
* Main statement: the checker accepts every document that is printed, whatever it holds and however
  deep it nests; so it accepts all that laying out or editing a text can give.
-/

namespace JsonEdit

namespace Json

/-! ## Scalars -/

theorem exists_writes_writeNumber (x : Number) :
    writeNumber x = ['n', 'u', 'l', 'l'] ∨ ∃ n, Numeral.Writes (writeNumber x) n := by
  cases x with
  | integer n => exact .inr ⟨_, writes_signed n⟩
  | fraction x =>
    rcases exists_number_of_writeFloat x with hnull | ⟨n, y, hw, -⟩
    · exact .inl hnull
    · exact .inr ⟨n, hw⟩

theorem stringChar_escapeChar (c : Char) : StringChar (escapeChar c) := by
  unfold escapeChar
  rcases hl : letterOf? c with _ | l
  · obtain ⟨hquote, hslash⟩ := ne_of_letterOf?_eq_none hl
    by_cases hc : isControl c
    · have hlt : c.toNat < 0x20 := by simpa [isControl] using hc
      obtain ⟨h₁, h₂, h₃, h₄⟩ := exists_unit?_iff.1 ⟨_, unit?_hexDigit hlt⟩
      rw [if_pos hc]
      exact .unit h₁ h₂ h₃ h₄
    · rw [if_neg hc]
      exact .plain (by simpa [isControl] using hc) hquote hslash
  · exact .letter (exists_charOf?_iff.1 ⟨c, (charOf?_of_letterOf? hl).1⟩)

theorem stringChars_escape (s : List Char) : StringChars (escape s) := by
  induction s with
  | nil => exact .nil
  | cons c s ih => exact .cons (stringChar_escapeChar c) ih

theorem isString_quote (s : String) : IsString (quote s) :=
  ⟨_, rfl, stringChars_escape s.toList⟩

theorem isScalar_write (style : Style) (depth : Nat) {v : Value} (ho : v.kind ≠ .object)
    (ha : v.kind ≠ .array) : IsScalar (write style depth v) := by
  rcases v with _ | b | x | s | vs | ms
  · exact .null
  · cases b with
    | true => exact .true
    | false => exact .false
  · rcases exists_writes_writeNumber x with hnull | ⟨n, hw⟩
    · rw [write, hnull]
      exact .null
    · exact .number hw
  · exact .string (isString_quote s)
  · exact absurd rfl ha
  · exact absurd rfl ho

/-! ## Parts of a container -/

/-- Behind one part of a container, `s` goes on with its other parts up to the closing bracket. -/
def Bracket.Continues (b : Bracket) (s : List Char) : Prop :=
  ∀ k bs w, b.Leads k → Spaces bs → Derives .value w → Derives b.parts (k ++ (bs ++ (w ++ s)))

namespace Bracket.Continues

variable {b : Bracket} {bs k s w : List Char}

theorem of_spaces (hs : Spaces s) : b.Continues s :=
  fun _ _ _ hk hb hw => .lastPart hk (.element hb hw hs)

theorem next (hk : b.Leads k) (hb : Spaces bs) (hw : Derives .value w) (hs : b.Continues s) :
    b.Continues (',' :: (k ++ (bs ++ (w ++ s)))) := by
  intro k' bs' w' hk' hb' hw'
  have helement : Derives .element (bs' ++ (w' ++ [])) :=
    .element hb' hw' (List.forall_mem_nil _)
  have hparts := Derives.moreParts hk' helement (hs k bs w hk hb hw)
  simpa only [List.append_nil, List.append_assoc] using hparts

end Bracket.Continues

variable {style : Style}

theorem Style.Readable.spaces_gap (hs : style.Readable) (depth : Nat) : Spaces (style.gap depth) :=
  spaces_iff_allBlank.2 (hs.gap depth)

theorem exists_isKey_append (hs : style.Readable) (depth : Nat) (k : String) :
    ∃ w bs, style.gap depth ++ (quote k ++ style.colon) = w ++ bs ∧ IsKey w ∧ Spaces bs := by
  obtain ⟨bs, cs, hcolon, hb, hc⟩ := hs.colon
  refine ⟨style.gap depth ++ (quote k ++ (bs ++ [':'])), cs, ?_,
    ⟨_, _, _, rfl, hs.spaces_gap depth, isString_quote k, spaces_iff_allBlank.2 hb⟩,
    spaces_iff_allBlank.2 hc⟩
  simp [hcolon]

mutual

theorem derives_write (hs : style.Readable) (depth : Nat) :
    (v : Value) → Derives .value (write style depth v)
  | .null | .boolean _ | .number _ | .string _ =>
    .scalar (isScalar_write style depth (by simp [Value.kind]) (by simp [Value.kind]))
  | .array [] => .empty .list (List.forall_mem_nil _)
  | .array (v :: vs) => by
    have hitems := continues_writeItems hs (depth + 1) vs (hs.spaces_gap depth)
    have hparts := hitems [] _ _ rfl (hs.spaces_gap (depth + 1)) (derives_write hs (depth + 1) v)
    simpa [write, Bracket.opening, Bracket.closing] using Derives.container hparts
  | .object [] => .empty .object (List.forall_mem_nil _)
  | .object ((k, v) :: ms) => by
    obtain ⟨w, bs, hkey, hw, hb⟩ := exists_isKey_append hs (depth + 1) k
    have hmembers := continues_writeMembers hs (depth + 1) ms (hs.spaces_gap depth)
    have hparts := hmembers w bs _ hw hb (derives_write hs (depth + 1) v)
    rw [← List.append_assoc, ← hkey] at hparts
    simpa [write, Bracket.opening, Bracket.closing] using Derives.container hparts

theorem continues_writeItems (hs : style.Readable) (depth : Nat) :
    (vs : List Value) → {bs : List Char} → Spaces bs →
      Bracket.list.Continues (writeItems style depth vs ++ bs)
  | [], _, hb => .of_spaces hb
  | v :: vs, bs, hb => by
    have hnext := Bracket.Continues.next (b := .list) (k := []) rfl (hs.spaces_gap depth)
      (derives_write hs depth v) (continues_writeItems hs depth vs hb)
    simpa [writeItems] using hnext

theorem continues_writeMembers (hs : style.Readable) (depth : Nat) :
    (ms : List (String × Value)) → {bs : List Char} → Spaces bs →
      Bracket.object.Continues (writeMembers style depth ms ++ bs)
  | [], _, hb => .of_spaces hb
  | (k, v) :: ms, bs, hb => by
    obtain ⟨w, bs', hkey, hw, hb'⟩ := exists_isKey_append hs depth k
    have hnext := Bracket.Continues.next (b := .object) hw hb'
      (derives_write hs depth v) (continues_writeMembers hs depth ms hb)
    rw [← List.append_assoc, ← hkey] at hnext
    simpa [writeMembers] using hnext

end

end Json

open Json

theorem checkDocument_print (v : Value) : checkDocument (print v) = .ok () := by
  have hvalue : Derives .value (print v).toList := by
    rw [print, String.toList_ofList]
    exact derives_write indented_readable 0 v
  have helement : Derives .element ([] ++ ((print v).toList ++ [])) :=
    .element (List.forall_mem_nil _) hvalue (List.forall_mem_nil _)
  rw [List.nil_append, List.append_nil] at helement
  exact checkDocument_of_derives helement

/-- The checker accepts the text of every document: of any value, of any text laid out again, and
of any edit that succeeds. -/
theorem checkDocument_of_printed :
    (∀ v, checkDocument (print v) = .ok ()) ∧
    (∀ text s, canonical text = .ok s → checkDocument s = .ok ()) ∧
    ∀ document path raw s, editDocument document path raw = .ok s → checkDocument s = .ok () := by
  refine ⟨checkDocument_print, fun text s h => ?_, fun document path raw s h => ?_⟩
  · obtain ⟨t, -, rfl⟩ := map_eq_ok_iff.1 h
    exact checkDocument_print t
  · obtain ⟨t, p, t', -, -, -, rfl⟩ := exists_set_of_editDocument h
    exact checkDocument_print t'

/-- The text of a member that is given 127 lists inside each other cannot be read. It is accepted
all the same. -/
theorem checkDocument_of_printed_lists :
    (∃ s, canonical "\x7b\"a\":null\x7d" = .ok s ∧ checkDocument s = .ok ()) ∧
    ∃ s, editDocument "\x7b\"a\":null\x7d" "a"
        (String.ofList (List.replicate 127 '[' ++ List.replicate 127 ']')) = .ok s ∧
      checkDocument s = .ok () ∧ ∀ t, readDocument s ≠ .ok t := by
  have hcanonical : canonical "\x7b\"a\":null\x7d" = .ok (print (.object [("a", .null)])) := by
    rw [canonical, readDocument_member_null]
    rfl
  have hedit := editDocument_member_null
    (String.ofList (List.replicate 127 '[' ++ List.replicate 127 ']'))
  refine ⟨⟨_, hcanonical, checkDocument_of_printed.2.1 _ _ hcanonical⟩, _, hedit,
    checkDocument_of_printed.2.2 _ _ _ _ hedit, fun t => ?_⟩
  rw [infer_lists (by decide)]
  exact readDocument_print_member_lists (by decide) t

end JsonEdit
