import JsonEdit.Proofs.Json.Steps

/-!
# Runs of the reader

* A `Place` is where the reader stands: a value is due, or one has just been completed. `Moves` is
  all that one step of a reader that succeeds can do.
* `holds_of_run`: what every move keeps holds where the reader ends.
-/

namespace JsonEdit.Json

/-- Where the reader stands, with the containers that are open and the text that is left. -/
inductive Place where
  | due (stack : List Frame) (s : List Char)
  | behind (stack : List Frame) (v : Value) (s : List Char)

namespace Place

/-- What the reader makes of the text that is left. -/
def run : Place → Except Fault Value
  | due stack s => readValue stack s
  | behind stack v s => goOn stack v s

def text : Place → List Char
  | due _ s => s
  | behind _ _ s => s

/-- One step of the reader. -/
inductive Moves : Place → Place → Prop where
  | scalar {stack : List Frame} {s r : List Char} {v : Value} {h : r.length < s.length}
    (hs : readOpening s = .ok (.scalar v, ⟨r, h⟩)) : Moves (due stack s) (behind stack v r)
  | emptyList {stack : List Frame} {s r : List Char} (hopen : stack.length < maxOpen)
    (h : r.length < s.length) : Moves (due stack s) (behind stack (.array []) r)
  | list {stack : List Frame} {s r : List Char} (hopen : stack.length < maxOpen)
    (h : r.length < s.length) : Moves (due stack s) (due (.items [] :: stack) r)
  | emptyObject {stack : List Frame} {s r : List Char} (hopen : stack.length < maxOpen)
    (h : r.length < s.length) : Moves (due stack s) (behind stack (.object []) r)
  | object {stack : List Frame} {s r : List Char} (key : String)
    (hopen : stack.length < maxOpen) (h : r.length < s.length) :
    Moves (due stack s) (due (.members [] key :: stack) r)
  | closeList {done : List Value} {stack : List Frame} {v : Value} {s r : List Char}
    (h : r.length < s.length) :
    Moves (behind (.items done :: stack) v s) (behind stack (.array (v :: done).reverse) r)
  | nextItem {done : List Value} {stack : List Frame} {v : Value} {s r : List Char}
    (h : r.length < s.length) :
    Moves (behind (.items done :: stack) v s) (due (.items (v :: done) :: stack) r)
  | closeObject {done : List (String × Value)} {key : String} {stack : List Frame} {v : Value}
    {s r : List Char} (h : r.length < s.length) :
    Moves (behind (.members done key :: stack) v s)
      (behind stack (.object (Members.put key v done)) r)
  | nextMember {done : List (String × Value)} {key : String} {stack : List Frame} {v : Value}
    {s r : List Char} (key' : String) (h : r.length < s.length) :
    Moves (behind (.members done key :: stack) v s)
      (due (.members (Members.put key v done) key' :: stack) r)

theorem Moves.length_lt {p q : Place} (h : Moves p q) : q.text.length < p.text.length := by
  cases h <;> assumption

variable {w : Value}

theorem exists_moves_of_readValue {stack : List Frame} {s : List Char}
    (h : readValue stack s = .ok w) : ∃ q, Moves (due stack s) q ∧ q.run = .ok w := by
  revert h
  fun_cases readValue stack s with
  | case2 v r hr hs => exact fun h => ⟨_, .scalar hs, h⟩
  | case4 r hr hs hopen r' hr' hclose => exact fun h => ⟨_, .emptyList hopen (by omega), h⟩
  | case5 r hr hs hopen c r' hr' hnext hc => exact fun h => ⟨_, .list hopen (by omega), h⟩
  | case8 r hr hs hopen r' hr' hclose => exact fun h => ⟨_, .emptyObject hopen (by omega), h⟩
  | case10 r hr hs hopen r' hr' key r'' hr'' hkey hnext hc =>
    exact fun h => ⟨_, .object key hopen (by omega), h⟩
  | _ => simp

/-- The reader stops with the value it has completed, or it moves on. -/
theorem exists_moves_of_goOn {stack : List Frame} {v : Value} {s : List Char}
    (h : goOn stack v s = .ok w) :
    (stack = [] ∧ v = w) ∨ ∃ q, Moves (behind stack v s) q ∧ q.run = .ok w := by
  revert h
  fun_cases goOn stack v s with
  | case1 hs => exact fun h => .inl ⟨rfl, Except.ok.inj h⟩
  | case4 done stack r hr hs => exact fun h => .inr ⟨_, .closeList hr, h⟩
  | case7 done stack r hr c r' hr' hnext hc hs => exact fun h => .inr ⟨_, .nextItem hr, h⟩
  | case10 done key stack r hr hs => exact fun h => .inr ⟨_, .closeObject hr, h⟩
  | case13 done key stack r hr r' hr' key' r'' hr'' hkey hs hc hnext =>
    exact fun h => .inr ⟨_, .nextMember key' (by omega), h⟩
  | _ => simp

theorem ends_or_moves {p : Place} (h : p.run = .ok w) :
    (∃ s, p = behind [] w s) ∨ ∃ q, Moves p q ∧ q.run = .ok w := by
  rcases p with ⟨stack, s⟩ | ⟨stack, v, s⟩
  · exact .inr (exists_moves_of_readValue h)
  · rcases exists_moves_of_goOn h with ⟨rfl, rfl⟩ | hmoves
    · exact .inl ⟨s, rfl⟩
    · exact .inr hmoves

/-- What every move keeps is still known where the reader ends. -/
theorem holds_of_run {P : Place → Prop} (hmoves : ∀ p q, Moves p q → P p → P q) {p : Place}
    (hp : P p) (h : p.run = .ok w) : ∃ s, P (behind [] w s) := by
  rcases ends_or_moves h with ⟨s, rfl⟩ | ⟨q, hq, hrun⟩
  · exact ⟨s, hp⟩
  · have := hq.length_lt
    exact holds_of_run hmoves (hmoves p q hq hp) hrun
termination_by p.text.length

end Place

end JsonEdit.Json
