import Growable.Proofs.Sequence.Replacement

/-!
# Lists that are taken apart from both ends

A list is taken apart move by move: each move takes an element from one end, or only looks.  `TakenApart` says
what the answers to the moves come to, whatever is taken apart by them:

* each answer is the element at its end of what was left before, and the rest is left (`exact`);
* at each point, what came from the front, what is left, and what came from the back, last one first, are the
  list (`whole`);
* once an end has nothing to answer, neither end ever has again (`ended`).

Moves that go by `DrainMove.takes` take every list apart (`DrainMove.takenApart_takesAll`).
-/

namespace Growable

deriving instance DecidableEq for DrainMove

variable {α : Type}

namespace DrainMove

/-- What was answered by the moves at one end, in the order of the moves. -/
def given (side : DrainMove) (moves : List DrainMove) (answers : List (Option α × List α)) : List α :=
  (moves.zip answers).flatMap fun step => if step.1 = side then step.2.1.toList else []

/-- What the moves of a side gave, one move at a time. -/
theorem given_cons (side move : DrainMove) (moves : List DrainMove) (answer : Option α × List α)
    (answers : List (Option α × List α)) :
    given side (move :: moves) (answer :: answers)
      = (if move = side then answer.1.toList else []) ++ given side moves answers := by
  rw [given, List.zip_cons_cons, List.flatMap_cons]
  rfl

/-! ## One move -/

/-- A move takes nothing away but what it answers, from its end. -/
theorem takes_whole (move : DrainMove) (xs : List α) :
    (if move = next then (move.takes xs).1.toList else []) ++ (move.takes xs).2
      ++ (if move = nextBack then (move.takes xs).1.toList else []).reverse = xs := by
  cases move with
  | next => cases xs <;> simp [takes]
  | nextBack =>
      cases hlast : xs.getLast? with
      | none => simp [takes, List.getLast?_eq_none_iff.mp hlast]
      | some x => simpa [takes, hlast] using List.dropLast_append_getLast? x hlast
  | look => exact List.append_nil xs

/-- An end has nothing to answer only if nothing is left. -/
theorem nil_of_takes_none {move : DrainMove} {xs : List α} (hmove : move ≠ look)
    (hnone : (move.takes xs).1 = none) : xs = [] := by
  cases move with
  | next => exact List.head?_eq_none_iff.mp hnone
  | nextBack => exact List.getLast?_eq_none_iff.mp hnone
  | look => exact absurd rfl hmove

theorem takes_nil (move : DrainMove) : (move.takes [] : Option α × List α) = (none, []) := by
  cases move <;> rfl

/-! ## One move after another -/

@[simp] theorem length_takesAll (moves : List DrainMove) (xs : List α) :
    (takesAll moves xs).length = moves.length := by
  induction moves generalizing xs with
  | nil => rfl
  | cons move rest ih => rw [takesAll, List.length_cons, List.length_cons, ih]

/-- The answers to the first moves do not depend on the others. -/
theorem take_takesAll (k : Nat) (moves : List DrainMove) (xs : List α) :
    (takesAll moves xs).take k = takesAll (moves.take k) xs := by
  induction moves generalizing k xs with
  | nil => simp [takesAll]
  | cons move rest ih =>
      cases k with
      | zero => rfl
      | succ k => rw [takesAll, List.take_succ_cons, List.take_succ_cons, ih, takesAll]

/-- The answers to the other moves depend only on what the first ones leave. -/
theorem drop_takesAll (k : Nat) (moves : List DrainMove) (xs : List α) :
    (takesAll moves xs).drop k = takesAll (moves.drop k) (left (moves.take k) xs) := by
  induction moves generalizing k xs with
  | nil => simp [takesAll]
  | cons move rest ih =>
      cases k with
      | zero => rfl
      | succ k =>
          rw [takesAll, List.drop_succ_cons, List.drop_succ_cons, ih, List.take_succ_cons]
          rfl

/-- All moves together take nothing away but what they answer, each from its end. -/
theorem takesAll_whole (moves : List DrainMove) (xs : List α) :
    given next moves (takesAll moves xs) ++ left moves xs
      ++ (given nextBack moves (takesAll moves xs)).reverse = xs := by
  induction moves generalizing xs with
  | nil => exact List.append_nil xs
  | cons move rest ih =>
      -- What this move answers stands around what the others take apart.
      have hleft : left (move :: rest) xs = left rest (move.takes xs).2 := rfl
      rw [takesAll, given_cons, given_cons, hleft, List.reverse_append]
      calc
        _ = (if move = next then (move.takes xs).1.toList else [])
            ++ (given next rest (takesAll rest (move.takes xs).2) ++ left rest (move.takes xs).2
              ++ (given nextBack rest (takesAll rest (move.takes xs).2)).reverse)
            ++ (if move = nextBack then (move.takes xs).1.toList else []).reverse := by
          simp only [List.append_assoc]
        _ = xs := by rw [ih, takes_whole]

theorem length_takes (move : DrainMove) (xs : List α) :
    (move.takes xs).1.toList.length + (move.takes xs).2.length = xs.length := by
  have hwhole := congrArg List.length (move.takes_whole xs)
  cases move with
  | next | nextBack => simpa [Nat.add_comm] using hwhole
  | look => exact Nat.zero_add _

/-- What was taken out and what is left are as many as there were. -/
theorem length_takesAll_left (moves : List DrainMove) (xs : List α) :
    ((takesAll moves xs).flatMap (·.1.toList)).length + (left moves xs).length = xs.length := by
  induction moves generalizing xs with
  | nil => exact Nat.zero_add _
  | cons move rest ih =>
      have hleft : left (move :: rest) xs = left rest (move.takes xs).2 := rfl
      rw [takesAll, List.flatMap_cons, List.length_append, hleft, Nat.add_assoc, ih, length_takes]

/-- Nothing is taken from nothing. -/
theorem eq_none_of_mem_takesAll_nil {moves : List DrainMove} {answer : Option α × List α}
    (h : answer ∈ takesAll moves []) : answer = (none, []) := by
  induction moves with
  | nil => cases h
  | cons move rest ih =>
      rw [takesAll, takes_nil] at h
      rcases List.mem_cons.mp h with h | h
      · exact h
      · exact ih h

end DrainMove

/-! ## Lists that are taken apart -/

/-- What is left before each of the moves, and after the last one. -/
def stages (xs : List α) (answers : List (Option α × List α)) : List (List α) := xs :: answers.map Prod.snd

/-- The list `xs` is taken apart by moves: to each of them belongs what it answered, and what was left. -/
structure TakenApart (xs : List α) (moves : List DrainMove) (answers : List (Option α × List α)) : Prop where
  length_eq : answers.length = moves.length
  /-- Each move answers the element at its end of what is left, if any, and leaves the others. -/
  exact {k : Nat} {move : DrainMove} (hk : moves[k]? = some move) :
    ∃ before, (stages xs answers)[k]? = some before ∧ answers[k]? = some (move.takes before)
  /-- At each point, what came from both ends stands around what is left. -/
  whole {k : Nat} (hk : k ≤ moves.length) : ∃ rest, (stages xs answers)[k]? = some rest ∧
    DrainMove.given .next (moves.take k) (answers.take k) ++ rest
      ++ (DrainMove.given .nextBack (moves.take k) (answers.take k)).reverse = xs
  /-- Once an end answers nothing, nothing is left, and nothing is ever answered again. -/
  ended {i j : Nat} {move : DrainMove} {rest : List α} {later : Option α × List α} (hij : i ≤ j)
    (hmove : moves[i]? = some move) (hend : move ≠ .look) (hnone : answers[i]? = some (none, rest))
    (hlater : answers[j]? = some later) : later = (none, [])

namespace DrainMove

/-- What is left after `k` moves depends on those moves alone. -/
theorem stages_takesAll {moves : List DrainMove} {k : Nat} (hk : k ≤ moves.length) (xs : List α) :
    (stages xs (takesAll moves xs))[k]? = some (left (moves.take k) xs) := by
  induction moves generalizing k xs with
  | nil =>
      obtain rfl := Nat.le_zero.mp hk
      rfl
  | cons move rest ih =>
      cases k with
      | zero => rfl
      | succ k => exact ih (Nat.le_of_succ_le_succ hk) (move.takes xs).2

/-- The answer to a move is what it takes of what the moves before it leave. -/
theorem getElem?_takesAll {moves : List DrainMove} {k : Nat} {move : DrainMove}
    (hk : moves[k]? = some move) (xs : List α) :
    (takesAll moves xs)[k]? = some (move.takes (left (moves.take k) xs)) := by
  induction moves generalizing k xs with
  | nil => cases hk
  | cons first rest ih =>
      cases k with
      | zero =>
          obtain rfl := Option.some.inj hk
          rfl
      | succ k => exact ih hk (first.takes xs).2

/-- Moves take every list apart. -/
theorem takenApart_takesAll (moves : List DrainMove) (xs : List α) :
    TakenApart xs moves (takesAll moves xs) where
  length_eq := length_takesAll moves xs
  exact hk := ⟨_, stages_takesAll (List.getElem?_eq_some_iff.mp hk).1.le xs, getElem?_takesAll hk xs⟩
  whole {k} hk := by
    refine ⟨_, stages_takesAll hk xs, ?_⟩
    rw [take_takesAll]
    exact takesAll_whole (moves.take k) xs
  ended {i j move rest later} hij hmove hend hnone hlater := by
    have htakes := (getElem?_takesAll hmove xs).symm.trans hnone
    have hnil : left (moves.take i) xs = [] :=
      nil_of_takes_none hend (congrArg Prod.fst (Option.some.inj htakes))
    have hbehind : ((takesAll moves xs).drop i)[j - i]? = some later := by
      rw [List.getElem?_drop, Nat.add_sub_cancel' hij, hlater]
    rw [drop_takesAll, hnil] at hbehind
    exact eq_none_of_mem_takesAll_nil (List.mem_of_getElem? hbehind)

end DrainMove

end Growable
