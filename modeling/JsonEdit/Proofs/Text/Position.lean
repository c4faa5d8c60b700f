import JsonEdit.Proofs.Json.Lines
import JsonEdit.Text.Position

/-!
# Positions on the lines of a text

* `stored` is a text in bytes. It is cut at line feeds where the text is (`splitOn_stored`), as no
  other character is stored with the byte of a line feed in it.
* `p.IsBehind text i`: the position `p` counts the lines that begin within the first `i` bytes of
  the text, and the bytes since the last one began. So does the position of each offset that the
  text has (`isBehind_ofOffset`).
* Main statement: such a position is on a line of the text, and its column is at most as far as this
  line goes (`IsBehind.isOnLine`).
-/

namespace JsonEdit

open Position (lineFeed)

/-! ## Texts in bytes -/

/-- The bytes of a text as it is stored. -/
def stored (s : List Char) : List UInt8 :=
  s.flatMap String.utf8EncodeChar

theorem stored_cons (c : Char) (s : List Char) :
    stored (c :: s) = String.utf8EncodeChar c ++ stored s :=
  List.flatMap_cons

theorem toUTF8_eq_stored (text : String) : text.toUTF8.data.toList = stored text.toList := by
  rw [← String.ofList_toList (s := text), String.toUTF8_eq_toByteArray, String.toByteArray_ofList,
    String.toList_ofList, List.utf8Encode, List.data_toByteArray, List.toList_toArray, stored]

theorem length_stored (s : List Char) : (stored s).length = byteCount s := by
  induction s with
  | nil => rfl
  | cons c s ih =>
    rw [stored_cons, List.length_append, String.length_utf8EncodeChar, byteCount_cons, ih]

theorem utf8ByteSize_eq (text : String) : text.utf8ByteSize = byteCount text.toList := by
  rw [← length_stored, ← toUTF8_eq_stored]
  rfl

theorem lineFeed_ne_ofNat {n : Nat} (hlow : 128 ≤ n) (hhigh : n < 256) :
    lineFeed ≠ UInt8.ofNat n := by
  intro h
  have hn : 10 = n % 256 := by simpa [lineFeed] using congrArg UInt8.toNat h
  omega

theorem lineFeed_not_mem_utf8EncodeChar {c : Char} (hc : c ≠ '\n') :
    lineFeed ∉ String.utf8EncodeChar c := by
  intro h
  unfold String.utf8EncodeChar at h
  dsimp only at h
  split at h
  · have hn : 10 = c.val.toNat % 256 := by
      simpa [lineFeed] using congrArg UInt8.toNat (List.mem_singleton.1 h)
    refine hc (Char.toNat_inj.1 ?_)
    show c.val.toNat = 10
    omega
  -- all bytes of a character that takes more than one are from 128 on
  split at h
  · simp only [List.mem_cons, List.not_mem_nil, or_false] at h
    rcases h with h | h <;> exact lineFeed_ne_ofNat (by omega) (by omega) h
  split at h
  · simp only [List.mem_cons, List.not_mem_nil, or_false] at h
    rcases h with h | h | h <;> exact lineFeed_ne_ofNat (by omega) (by omega) h
  · simp only [List.mem_cons, List.not_mem_nil, or_false] at h
    rcases h with h | h | h | h <;> exact lineFeed_ne_ofNat (by omega) (by omega) h

theorem splitOn_stored (s : List Char) :
    (stored s).splitOn lineFeed = (s.splitOn '\n').map stored := by
  induction s with
  | nil => rfl
  | cons c s ih =>
    rw [stored_cons]
    by_cases hc : c = '\n'
    · subst hc
      rw [List.splitOn_cons_eq_if_modifyHead, if_pos (by simp), List.map_cons, ← ih]
      rfl
    · obtain ⟨p, ps, hps⟩ := List.exists_cons_of_ne_nil (List.splitOn_ne_nil '\n' s)
      rw [splitOn_append_of_not_mem (lineFeed_not_mem_utf8EncodeChar hc), splitOn_cons_of_ne hc, ih,
        hps]
      rfl

/-! ## Positions -/

namespace Position

/-- The position is reached when the first `i` bytes of the text have been read: the line is one
more than the line feeds among them, the column counts those behind the last line feed. -/
structure IsBehind (p : Position) (text : String) (i : Nat) : Prop where
  le_size : i ≤ text.utf8ByteSize
  line_eq : p.line = 1 + (text.toUTF8.data.toList.take i).count lineFeed
  column_eq : p.column = ((text.toUTF8.data.toList.take i).rtakeWhile (· ≠ lineFeed)).length

/-- The line is one of the text, and the column is not behind its end. -/
structure IsOnLine (p : Position) (text : String) : Prop where
  one_le : 1 ≤ p.line
  le_lines : p.line ≤ (lines text).length
  column_le : ∃ l, (lines text)[p.line - 1]? = some l ∧ p.column ≤ byteCount l

theorem after_eq (bytes : List UInt8) :
    after bytes =
      ⟨1 + bytes.count lineFeed, (bytes.rtakeWhile (· ≠ lineFeed)).length⟩ := by
  induction bytes using List.reverseRecOn with
  | nil => rfl
  | append_singleton bytes b ih =>
    rw [after_append_singleton, ih, next, List.rtakeWhile_concat]
    by_cases hb : b = lineFeed
    · simp [hb, Nat.add_assoc]
    · simp [hb]

theorem isBehind_ofOffset {text : String} {i : Nat} (h : i ≤ text.utf8ByteSize) :
    (ofOffset text i).IsBehind text i where
  le_size := h
  line_eq := by rw [ofOffset, after_eq]
  column_eq := by rw [ofOffset, after_eq]

theorem IsBehind.exists_line {p : Position} {text : String} {i : Nat} (h : p.IsBehind text i) :
    ∃ l, (lines text)[p.line - 1]? = some l ∧ p.column ≤ byteCount l := by
  have hpiece := getElem?_splitOn_append lineFeed (text.toUTF8.data.toList.take i)
    (text.toUTF8.data.toList.drop i)
  rw [List.take_append_drop, toUTF8_eq_stored, splitOn_stored, List.getElem?_map,
    Option.map_eq_some_iff] at hpiece
  obtain ⟨l, hl, hstored⟩ := hpiece
  have hline : p.line - 1 = ((stored text.toList).take i).count lineFeed := by
    rw [h.line_eq, toUTF8_eq_stored, Nat.add_sub_cancel_left]
  refine ⟨l, by rw [hline]; exact hl, ?_⟩
  rw [h.column_eq, toUTF8_eq_stored, ← length_stored, hstored, List.length_append]
  exact Nat.le_add_right ..

theorem IsBehind.isOnLine {p : Position} {text : String} {i : Nat} (h : p.IsBehind text i) :
    p.IsOnLine text := by
  obtain ⟨l, hl, hcolumn⟩ := h.exists_line
  have hlt : p.line - 1 < (lines text).length := (List.getElem?_eq_some_iff.1 hl).1
  have hone : 1 ≤ p.line := by
    rw [h.line_eq]
    exact Nat.le_add_right ..
  exact ⟨hone, by omega, l, hl, hcolumn⟩

end Position

end JsonEdit
