import Growable.Proofs.Deque

/-!
# Drains, slot by slot

The elements of a drain lie in the slots of its region between two cursors; the slots outside of these are
empty.  A move takes the element out of the slot at one of the cursors, as long as these have not met, and the
slot is empty then (`Slots.move`).  What is in a slot can be taken out only once: to take it out of an empty
slot has no outcome at all.

Moves never come to that.  The cursors stay around the elements that a drain says are left, one in each slot
(`Slots.Holds`), and both answer every move alike: `Slots.Holds.moveAll_eq`.
-/

namespace Growable

variable {α : Type}

/-- The slots of a region, which have an element each or are empty, and the cursors around the elements. -/
structure Slots (α : Type) where
  cells : List (Option α)
  front : Nat
  back : Nat

namespace Slots

/-- Elements in the first slots of a region; the others are empty. -/
def of (capacity : Nat) (xs : List α) : Slots α :=
  ⟨xs.map some ++ List.replicate (capacity - xs.length) none, 0, xs.length⟩

/-- Takes the element out of a slot, which must not be empty. -/
def takeOut (slot : Nat) (c : Slots α) : Option (α × Slots α) := do
  let x ← c.cells[slot]?.join
  return (x, { c with cells := c.cells.set slot none })

/-- Takes the element at one of the cursors out, unless these have met, and moves the cursor past it. -/
def move : DrainMove → Slots α → Option (Option α × Slots α)
  | .next, c =>
    if c.front = c.back then some (none, c)
    else do
      let (x, c) ← c.takeOut c.front
      return (some x, { c with front := c.front + 1 })
  | .nextBack, c =>
    if c.front = c.back then some (none, c)
    else do
      let (x, c) ← c.takeOut (c.back - 1)
      return (some x, { c with back := c.back - 1 })
  | .look, c => some (none, c)

/-- One move after another: what each takes out, and what it leaves. -/
def moveAll : List DrainMove → Slots α → Option (List (Option α × Slots α))
  | [], _ => some []
  | first :: moves, c => do
    let (x, c) ← c.move first
    let answers ← moveAll moves c
    return (x, c) :: answers

/-- Of `capacity` slots, those between the cursors hold the elements `rest`, one each, and all others are
empty. -/
structure Holds (capacity : Nat) (rest : List α) (c : Slots α) : Prop where
  length : c.front + rest.length = c.back
  back_le : c.back ≤ capacity
  cells_eq : c.cells
    = List.replicate c.front none ++ (rest.map some ++ List.replicate (capacity - c.back) none)

/-- At first the cells of the elements are full and those behind them empty. -/
theorem holds_of {capacity : Nat} {xs : List α} (h : xs.length ≤ capacity) : (of capacity xs).Holds capacity xs :=
  ⟨Nat.zero_add _, h, rfl⟩

variable {capacity : Nat} {rest : List α} {c : Slots α} {x : α}

/-- Where nothing is left, the cursors have met. -/
theorem Holds.front_eq_back_iff (h : c.Holds capacity rest) : c.front = c.back ↔ rest = [] := by
  rw [← List.length_eq_zero_iff]
  have hlength := h.length
  omega

/-- The first element left is taken out of the slot at the front. -/
theorem Holds.next (h : c.Holds capacity (x :: rest)) :
    ∃ c', c.move .next = some (some x, c') ∧ c'.Holds capacity rest := by
  have hapart : c.front ≠ c.back := fun hmet => List.cons_ne_nil x rest (h.front_eq_back_iff.mp hmet)
  have hlength := h.length
  have hcell : c.cells[c.front]? = some (some x) := by
    rw [h.cells_eq, List.getElem?_append_right (by simp)]
    simp
  refine ⟨{ c with cells := c.cells.set c.front none, front := c.front + 1 }, ?_, ?_, h.back_le, ?_⟩
  · rw [move, if_neg hapart, takeOut, hcell]
    rfl
  · rw [List.length_cons] at hlength
    exact (Nat.add_right_comm _ _ _).trans hlength
  · change c.cells.set c.front none = _
    rw [h.cells_eq, List.set_append_right _ _ (by simp), List.replicate_succ', List.append_assoc]
    simp

/-- The last element left is taken out of the slot before the back. -/
theorem Holds.nextBack (h : c.Holds capacity (rest ++ [x])) :
    ∃ c', c.move .nextBack = some (some x, c') ∧ c'.Holds capacity rest := by
  have hapart : c.front ≠ c.back := fun hmet => by simpa using h.front_eq_back_iff.mp hmet
  have hlength : c.front + (rest.length + 1) = c.back := by
    simpa using h.length
  have hslot : c.back - 1 = c.front + rest.length := by omega
  have hroom := h.back_le
  have hmore : capacity - (c.front + rest.length) = capacity - c.back + 1 := by omega
  have hcell : c.cells[c.front + rest.length]? = some (some x) := by
    rw [h.cells_eq, List.getElem?_append_right (by simp)]
    simp
  refine ⟨{ c with cells := c.cells.set (c.back - 1) none, back := c.back - 1 }, ?_, ?_, ?_, ?_⟩
  · rw [← hslot] at hcell
    rw [move, if_neg hapart, takeOut, hcell]
    rfl
  · exact hslot.symm
  · exact (Nat.sub_le _ _).trans h.back_le
  · change c.cells.set (c.back - 1) none = _ ++ (_ ++ List.replicate (capacity - (c.back - 1)) none)
    rw [hslot, hmore, h.cells_eq, List.set_append_right _ _ (by simp), List.replicate_succ]
    simp

/-- **A move takes out what it takes of the elements left**, and the cursors stay around the others. -/
theorem Holds.move_eq (h : c.Holds capacity rest) (move : DrainMove) :
    ∃ c', c.move move = some ((move.takes rest).1, c') ∧ c'.Holds capacity (move.takes rest).2 := by
  cases move with
  | next =>
      cases rest with
      | nil => exact ⟨c, if_pos (h.front_eq_back_iff.mpr rfl), h⟩
      | cons x rest => exact h.next
  | nextBack =>
      rcases List.eq_nil_or_concat rest with rfl | ⟨rest, x, rfl⟩
      · exact ⟨c, if_pos (h.front_eq_back_iff.mpr rfl), h⟩
      · rw [List.concat_eq_append] at h ⊢
        rw [DrainMove.takes, List.getLast?_concat, List.dropLast_concat]
        exact h.nextBack
  | look => exact ⟨c, rfl, h⟩

/-- **No slot is taken out twice, and none is forgotten.**  All moves find the elements in their slots, and
after each of them the slots between the cursors hold what is left. -/
theorem Holds.moveAll_eq (h : c.Holds capacity rest) (moves : List DrainMove) :
    ∃ answers, c.moveAll moves = some answers ∧
      List.Forall₂ (fun answer taken => answer.1 = taken.1 ∧ answer.2.Holds capacity taken.2) answers
        (DrainMove.takesAll moves rest) := by
  induction moves generalizing c rest with
  | nil => exact ⟨[], rfl, .nil⟩
  | cons first moves ih =>
      obtain ⟨c', hmove, hc'⟩ := h.move_eq first
      obtain ⟨answers, hall, hanswers⟩ := ih hc'
      refine ⟨((first.takes rest).1, c') :: answers, ?_, .cons ⟨rfl, hc'⟩ hanswers⟩
      simp only [moveAll, hmove, hall, Option.bind_eq_bind, Option.bind_some, Option.pure_def]

end Slots

end Growable
