import Growable.Element

/-!
# Regions

A region is room for a number of elements of one shape, in a block of memory of exactly that size.  A
region that occupies no bytes, because it has no slots or because its elements have no size, has no
block, and no allocator is ever asked for one.

* `bytes?_eq_some_iff` — which regions can exist at all.
-/

namespace Growable

/-- Room for `capacity` elements, in a block unless it occupies no bytes. -/
structure Region where
  capacity : Nat
  block : Option Block
  deriving DecidableEq

namespace Region

/-- The region without slots. -/
def empty : Region := ⟨0, none⟩

/-- The bytes of a region, unless they are more than a block can have.  A block ends at a multiple of
the alignment, which the largest address has to leave room for. -/
def bytes? (shape : Shape) (capacity : Nat) : Option Nat :=
  if shape.bytes * capacity + shape.align ≤ Size.blockLimit + 1 then some (shape.bytes * capacity)
  else none

theorem bytes?_eq_some_iff {shape : Shape} {capacity n : Nat} :
    bytes? shape capacity = some n ↔
      shape.bytes * capacity = n ∧ n + shape.align ≤ Size.blockLimit + 1 := by
  unfold bytes?
  grind

variable {σ α : Type}

/-- A new region of exactly `capacity` slots. -/
def allocate (shape : Shape) (allocator : Allocator) (capacity : Nat) : Act (World σ α) Region :=
  match bytes? shape capacity with
  | none => Act.refuse .capacityExceeded
  | some 0 => return ⟨capacity, none⟩
  | some bytes => do
    let block ← World.request allocator bytes
    return ⟨capacity, some block⟩

/-- Gives the block of a region back, with the size it was asked for. -/
def release (shape : Shape) (allocator : Allocator) (region : Region) : Act (World σ α) Unit := do
  let bytes ← Act.ofOption .layout (bytes? shape region.capacity)
  if bytes = 0 then
    return
  let block ← Act.ofOption .block region.block
  World.giveBack allocator block bytes

end Region

end Growable
