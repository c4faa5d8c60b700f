import JsonEdit.Proofs.Json.Printed
import JsonEdit.Proofs.Text.Pieces

/-!
# Lines of a printed document

* Scalars and empty containers stand on one line: no control character is in the text of a scalar
  (`noControl_of_isScalar`), so no line feed is.
* The text of a document is the text of the part at a location with a text before and a text behind
  that do not hang on this part (`exists_write_put`).
* No control character is in a document on one line, either (`noControl_printLine`).
* Main statement: replacing a part that stands on one line by another such part changes one line at
  most (`alikeButOneLine_print_put`).
-/

namespace JsonEdit

/-! ## Lines -/

/-- The lines of a text, cut at line feeds. -/
def lines (s : String) : List (List Char) :=
  s.toList.splitOn '\n'

/-- As many lines in both texts, and the same lines but for one at most. -/
def AlikeButOneLine (s s' : String) : Prop :=
  (lines s').length = (lines s).length ∧ ∃ i : Nat, ∀ j, j ≠ i → (lines s')[j]? = (lines s)[j]?

theorem alikeButOneLine_of_around {a b x x' : List Char} (hx : '\n' ∉ x) (hx' : '\n' ∉ x') :
    AlikeButOneLine (String.ofList (a ++ (x ++ b))) (String.ofList (a ++ (x' ++ b))) := by
  obtain ⟨before, u, e, after, hlines⟩ := exists_splitOn_around '\n' a b
  simp only [AlikeButOneLine, lines, String.toList_ofList, hlines x hx, hlines x' hx']
  refine ⟨by simp, before.length, fun j hj => ?_⟩
  have hset : before ++ (u ++ (x' ++ e)) :: after =
      (before ++ (u ++ (x ++ e)) :: after).set before.length (u ++ (x' ++ e)) := by
    simp
  rw [hset, List.getElem?_set_ne hj.symm]

/-! ## Parts on one line -/

/-- A scalar or an empty container. -/
def Value.IsLeaf : Value → Prop
  | .array vs => vs = []
  | .object ms => ms = []
  | _ => True

namespace Json

/-- No control character stands in the text. -/
def NoControl (w : List Char) : Prop :=
  ∀ c ∈ w, 0x20 ≤ c.toNat

namespace NoControl

variable {w s : List Char}

theorem newline_not_mem (hw : NoControl w) : '\n' ∉ w :=
  fun h => absurd (hw _ h) (by decide)

theorem append (hw : NoControl w) (hs : NoControl s) : NoControl (w ++ s) :=
  List.forall_mem_append.2 ⟨hw, hs⟩

theorem of_allDigits (hw : Numeral.AllDigits w) : NoControl w := by
  intro c hc
  have hdigit := hw c hc
  rw [Char.isDigit, Bool.and_eq_true, decide_eq_true_eq] at hdigit
  exact (by decide : 0x20 ≤ '0'.toNat).trans hdigit.1

theorem of_isHex {c : Char} (hc : IsHex c) : 0x20 ≤ c.toNat := by
  have hle : ∀ d : Char, 0x20 ≤ d.toNat → d ≤ c → 0x20 ≤ c.toNat := fun d hd hdc => hd.trans hdc
  rcases hc with hc | hc | hc
  · exact hle '0' (by decide) hc.1
  · exact hle 'a' (by decide) hc.1
  · exact hle 'A' (by decide) hc.1

theorem of_writesWhole (hw : Numeral.WritesWhole w) : NoControl w := by
  cases hw with
  | zero => simp [NoControl]
  | digits h0 hd hds => exact of_allDigits (List.forall_mem_cons.2 ⟨hd, hds⟩)

theorem of_writesFraction {ds : List Char} (hw : Numeral.WritesFraction w ds) : NoControl w := by
  cases hw with
  | absent => exact List.forall_mem_nil _
  | digits hne hds => exact List.forall_mem_cons.2 ⟨by decide, of_allDigits hds⟩

theorem of_writesExponent {e : Option Exponent} (hw : Numeral.WritesExponent w e) :
    NoControl w := by
  cases hw with
  | absent => exact List.forall_mem_nil _
  | digits hm hs hne hds =>
    refine List.forall_mem_cons.2 ⟨?_, append ?_ (of_allDigits hds)⟩
    · rcases hm with rfl | rfl <;> decide
    · cases hs <;> simp [NoControl]

theorem of_writes {n : Numeral} (hw : n.Writes w) : NoControl w := by
  obtain ⟨f, e, rfl, hwhole, hfraction, hexponent⟩ := hw
  have hsign : NoControl (if n.negative then ['-'] else []) := by
    split <;> simp [NoControl]
  exact hsign.append
    ((of_writesWhole hwhole).append ((of_writesFraction hfraction).append
      (of_writesExponent hexponent)))

theorem of_stringChar (hw : StringChar w) : NoControl w := by
  cases hw with
  | plain hc hquote hslash => exact List.forall_mem_singleton.2 hc
  | @letter c hc =>
    have hletter : ∀ d ∈ ['"', '\\', '/', 'b', 'f', 'n', 'r', 't'], 0x20 ≤ d.toNat := by simp
    exact List.forall_mem_cons.2 ⟨by decide, List.forall_mem_singleton.2 (hletter c hc)⟩
  | unit ha hb hc hd =>
    simp only [NoControl, List.forall_mem_cons]
    exact ⟨by decide, by decide, of_isHex ha, of_isHex hb, of_isHex hc, of_isHex hd,
      List.forall_mem_nil _⟩

theorem of_isString (hw : IsString w) : NoControl w := by
  obtain ⟨s, rfl, hs⟩ := hw
  refine List.forall_mem_cons.2 ⟨by decide, append ?_ (by simp [NoControl])⟩
  induction hs with
  | nil => exact List.forall_mem_nil _
  | cons hw hs ih => exact (of_stringChar hw).append ih

theorem single {c : Char} (hc : 0x20 ≤ c.toNat) : NoControl [c] :=
  List.forall_mem_singleton.2 hc

theorem quote (s : String) : NoControl (quote s) :=
  of_isString (isString_quote s)

end NoControl

theorem noControl_of_isScalar {w : List Char} (hw : IsScalar w) : NoControl w := by
  cases hw with
  | null => simp [NoControl]
  | true => simp [NoControl]
  | false => simp [NoControl]
  | number hw => exact .of_writes hw
  | string hw => exact .of_isString hw

theorem noControl_write (style : Style) (depth : Nat) {v : Value} (hv : v.IsLeaf) :
    NoControl (write style depth v) := by
  rcases v with _ | b | x | s | vs | ms
  case array =>
    obtain rfl : vs = [] := hv
    simp [write, NoControl]
  case object =>
    obtain rfl : ms = [] := hv
    simp [write, NoControl]
  all_goals
    exact noControl_of_isScalar
      (isScalar_write style depth (by simp [Value.kind]) (by simp [Value.kind]))

/-! ## Documents on one line -/

mutual

theorem noControl_write_compact (depth : Nat) : (v : Value) → NoControl (write compact depth v)
  | .null => noControl_write compact depth trivial
  | .boolean _ => noControl_write compact depth trivial
  | .number _ => noControl_write compact depth trivial
  | .string _ => noControl_write compact depth trivial
  | .array [] => noControl_write compact depth rfl
  | .array (v :: vs) => by
    rw [write]
    exact ((((NoControl.single (by decide)).append (noControl_write_compact (depth + 1) v)).append
      (noControl_writeItems_compact (depth + 1) vs)).append (List.forall_mem_nil _)).append
      (.single (by decide))
  | .object [] => noControl_write compact depth rfl
  | .object ((k, v) :: ms) => by
    rw [write]
    exact ((((((NoControl.single (by decide)).append (.quote k)).append
      (.single (by decide))).append (noControl_write_compact (depth + 1) v)).append
      (noControl_writeMembers_compact (depth + 1) ms)).append (List.forall_mem_nil _)).append
      (.single (by decide))

theorem noControl_writeItems_compact (depth : Nat) :
    (vs : List Value) → NoControl (writeItems compact depth vs)
  | [] => List.forall_mem_nil _
  | v :: vs => by
    rw [writeItems]
    exact ((NoControl.single (by decide)).append (noControl_write_compact depth v)).append
      (noControl_writeItems_compact depth vs)

theorem noControl_writeMembers_compact (depth : Nat) :
    (ms : List (String × Value)) → NoControl (writeMembers compact depth ms)
  | [] => List.forall_mem_nil _
  | (k, v) :: ms => by
    rw [writeMembers]
    exact ((((NoControl.single (by decide)).append (.quote k)).append
      (.single (by decide))).append (noControl_write_compact depth v)).append
      (noControl_writeMembers_compact depth ms)

end

theorem noControl_printLine (v : Value) : NoControl (printLine v).toList := by
  rw [printLine, String.toList_ofList]
  exact noControl_write_compact 0 v

/-! ## The text around a part -/

variable (style : Style)

theorem exists_writeItems_modify (depth : Nat) {vs : List Value} {i : Nat} {c : Value}
    (hc : vs[i]? = some c) :
    ∃ a b, ∀ f : Value → Value,
      writeItems style depth (vs.modify i f) = a ++ (write style depth (f c) ++ b) := by
  induction vs generalizing i with
  | nil => simp at hc
  | cons v vs ih =>
    cases i with
    | zero =>
      obtain rfl : v = c := by simpa using hc
      exact ⟨',' :: style.gap depth, writeItems style depth vs, fun f => by simp [writeItems]⟩
    | succ i =>
      obtain ⟨a, b, ih⟩ := ih (i := i) (by simpa using hc)
      refine ⟨',' :: style.gap depth ++ write style depth v ++ a, b, fun f => ?_⟩
      rw [List.modify_succ_cons, writeItems, ih f]
      simp only [List.append_assoc]

theorem exists_writeMembers_alter (depth : Nat) {ms : List (String × Value)} {k : String}
    {c : Value} (hc : Members.find? k ms = some c) :
    ∃ a b, ∀ f : Value → Value,
      writeMembers style depth (Members.alter k f ms) = a ++ (write style depth (f c) ++ b) := by
  induction ms with
  | nil => simp [Members.find?] at hc
  | cons m ms ih =>
    obtain ⟨k', v⟩ := m
    by_cases hk : k' = k
    · subst hk
      obtain rfl : v = c := by simpa [Members.find?] using hc
      exact ⟨',' :: style.gap depth ++ quote k' ++ style.colon, writeMembers style depth ms,
        fun f => by simp [Members.alter, writeMembers]⟩
    · rw [Members.find?_cons_of_ne hk] at hc
      obtain ⟨a, b, ih⟩ := ih hc
      refine ⟨',' :: style.gap depth ++ quote k' ++ style.colon ++ write style depth v ++ a, b,
        fun f => ?_⟩
      rw [Members.alter, if_neg hk, writeMembers, ih f]
      simp only [List.append_assoc]

theorem exists_write_alterChild (depth : Nat) {t c : Value} {s : Step}
    (hc : t.child? s = some c) :
    ∃ a b, ∀ f : Value → Value,
      write style depth (t.alterChild f s) = a ++ (write style (depth + 1) (f c) ++ b) := by
  rcases t with _ | _ | _ | _ | vs | ms
  case array =>
    rcases s with k | i
    · simp [Value.child?] at hc
    rcases vs with _ | ⟨v, vs⟩
    · simp [Value.child?] at hc
    rcases i with _ | i
    · obtain rfl : v = c := by simpa [Value.child?] using hc
      exact ⟨'[' :: style.gap (depth + 1),
        writeItems style (depth + 1) vs ++ (style.gap depth ++ [']']),
        fun f => by simp [Value.alterChild, write]⟩
    · obtain ⟨a, b, hitems⟩ :=
        exists_writeItems_modify style (depth + 1) (show vs[i]? = some c from hc)
      refine ⟨'[' :: style.gap (depth + 1) ++ write style (depth + 1) v ++ a,
        b ++ (style.gap depth ++ [']']), fun f => ?_⟩
      rw [Value.alterChild, List.modify_succ_cons, write, hitems f]
      simp only [List.append_assoc]
  case object =>
    rcases s with k | i
    swap
    · simp [Value.child?] at hc
    rcases ms with _ | ⟨⟨k', v⟩, ms⟩
    · simp [Value.child?, Members.find?] at hc
    by_cases hk : k' = k
    · subst hk
      obtain rfl : v = c := by simpa [Value.child?, Members.find?] using hc
      exact ⟨'\x7b' :: style.gap (depth + 1) ++ quote k' ++ style.colon,
        writeMembers style (depth + 1) ms ++ (style.gap depth ++ ['\x7d']),
        fun f => by simp [Value.alterChild, Members.alter, write]⟩
    · rw [Value.child?, Members.find?_cons_of_ne hk] at hc
      obtain ⟨a, b, hmembers⟩ := exists_writeMembers_alter style (depth + 1) hc
      refine ⟨'\x7b' :: style.gap (depth + 1) ++ quote k' ++ style.colon ++
        write style (depth + 1) v ++ a, b ++ (style.gap depth ++ ['\x7d']), fun f => ?_⟩
      rw [Value.alterChild, Members.alter, if_neg hk, write, hmembers f]
      simp only [List.append_assoc]
  all_goals rcases s with k | i <;> simp [Value.child?] at hc

/-- The text of a document is that of a part, with texts around it that do not hang on the part. -/
theorem exists_write_put (depth : Nat) {t c : Value} {l : Location} (hc : t.get? l = some c) :
    ∃ a b, ∀ w, write style depth (t.put l w) = a ++ (write style (depth + l.length) w ++ b) := by
  induction l generalizing t depth with
  | nil => exact ⟨[], [], fun w => by simp [Value.put]⟩
  | cons s l ih =>
    rw [Value.get?, Option.bind_eq_some_iff] at hc
    obtain ⟨d, hd, hc⟩ := hc
    obtain ⟨a, b, houter⟩ := exists_write_alterChild style depth hd
    obtain ⟨a', b', hinner⟩ := ih (depth + 1) hc
    refine ⟨a ++ a', b' ++ b, fun w => ?_⟩
    have hdepth : depth + 1 + l.length = depth + (s :: l).length := by
      rw [List.length_cons]
      omega
    rw [Value.put, houter, hinner, hdepth]
    simp only [List.append_assoc]

end Json

open Json

/-- A part that stands on one line, replaced by another one, leaves all lines but its own. -/
theorem alikeButOneLine_print_put {t c w : Value} {l : Location} (hc : t.get? l = some c)
    (hleaf : c.IsLeaf) (hw : w.IsLeaf) : AlikeButOneLine (print t) (print (t.put l w)) := by
  obtain ⟨a, b, htext⟩ := exists_write_put indented 0 hc
  have hold : print t = String.ofList (a ++ (write indented (0 + l.length) c ++ b)) := by
    rw [← htext c, Value.put_get? hc, print]
  have hnew : print (t.put l w) = String.ofList (a ++ (write indented (0 + l.length) w ++ b)) := by
    rw [← htext w, print]
  rw [hold, hnew]
  exact alikeButOneLine_of_around (noControl_write indented _ hleaf).newline_not_mem
    (noControl_write indented _ hw).newline_not_mem

end JsonEdit
