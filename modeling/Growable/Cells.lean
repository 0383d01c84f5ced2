/-!
# Cells

Elements lie in cells, one in each.  What is in a cell can be copied to another one; the cell that it comes
from shows it still, until something else is put there.  So a cell may be stale, and whoever uses the cells
knows which of them count.

Nothing is read, written or copied outside of the cells, and nothing is read from a cell in which nothing was
ever put.
-/

namespace Growable

/-- Cells in a row, and what was last put into each of them. -/
abbrev Cells (α : Type) := List (Option α)

namespace Cells

variable {α : Type}

/-- Elements in the first ones of `size` cells; nothing was put into the others. -/
def ofItems (size : Nat) (items : List α) : Cells α :=
  items.map some ++ List.replicate (size - items.length) none

/-- What is in a cell. -/
def read? (cells : Cells α) (index : Nat) : Option α := cells[index]?.join

/-- Puts an element into a cell. -/
def write? (cells : Cells α) (index : Nat) (x : α) : Option (Cells α) :=
  if index < cells.length then some (cells.set index (some x)) else none

/-- Copies what is in `count` cells from `source` on to the cells from `target` on, all at once: where the two
runs of cells overlap, it is what the cells held before that is copied. -/
def copy? (cells : Cells α) (source target count : Nat) : Option (Cells α) :=
  if source + count ≤ cells.length ∧ target + count ≤ cells.length then
    some (cells.take target ++ (cells.drop source).take count ++ cells.drop (target + count))
  else none

/-- The elements in `count` cells from `start` on, if there is one in each. -/
def run? (cells : Cells α) (start count : Nat) : Option (List α) :=
  if start + count ≤ cells.length then ((cells.drop start).take count).mapM id else none

/-- The element that had an index before those from `position` on were shifted by some cells. -/
def former? (cells : Cells α) (position shift index : Nat) : Option α :=
  cells.read? (if index < position then index else index + shift)

/-- Closes a gap in front of the last `tail` elements, which begin at `stop`: they come to stand behind the
first `start` elements, and these are all elements then. -/
def closeUp? (cells : Cells α) (start stop tail : Nat) : Option (List α) := do
  let cells ← cells.copy? stop start tail
  cells.run? 0 (start + tail)

end Cells

end Growable
