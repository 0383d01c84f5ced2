import Growable.Sequence

/-!
# The storage of a sequence

How a sequence changes its region: to a capacity of exactly what was asked for (`reserve`), to one by the
growth policy (`reserveMore`), to one without spare slots (`shrink`), and to none at all (`dispose`).
A refused change leaves the sequence as it was, since new storage is complete before the old one is let
go.
-/

namespace Growable.Sequence

variable {σ α : Type} (E : Element σ α)

/-- Takes new storage that holds the elements already, and releases the old one. -/
def install (region : Region) (items : List α) : SequenceAct σ α Unit := do
  let s ← Act.held
  Act.hold { s with region, items }
  Act.inWorld (s.region.release E.toShape s.handle.allocator)

/-- Drops the elements of a sequence, then releases its region, even if a drop faults. -/
def dispose (unwinding : Bool) (s : Sequence α) : Act (World σ α) Unit :=
  (E.dropAll unwinding s.items).ensuring fun _ =>
    s.region.release E.toShape s.handle.allocator

/-- Takes new contents, and disposes of the old ones. -/
def replace (region : Region) (items : List α) : SequenceAct σ α Unit := do
  let s ← Act.held
  Act.hold { s with region, items }
  Act.inWorld (s.dispose E false)

/-- Moves the elements to a new region of exactly `capacity` slots. -/
def reallocate (capacity : Nat) : SequenceAct σ α Unit := do
  let s ← Act.held
  Act.require (s.len ≤ capacity) .room
  let (region, items) ← Act.inWorld do
    World.note (.reallocating s.capacity capacity)
    let staging ← Staging.allocate E s.handle.allocator capacity
    let staging ← staging.moveAfter s.items
    staging.adopt
  install E region items

/-- Makes room for `capacity` elements in all, and for no more, unless there is enough already. -/
def reserve (capacity : Nat) : SequenceAct σ α Unit := do
  let s ← Act.held
  if capacity ≤ s.capacity then
    return
  Act.ofExcept (Capacity.check capacity (s.maxSize E))
  reallocate E capacity

/-- Makes room for `additional` more elements by the growth policy, unless there is enough already. -/
def reserveMore (additional : Nat) : SequenceAct σ α Unit := do
  let s ← Act.held
  let required ← Act.ofExcept (s.required additional)
  if required ≤ s.capacity then
    return
  let capacity ← Act.ofExcept (Capacity.grow s.capacity required (s.maxSize E))
  reallocate E capacity

/-- Gives up all spare slots. -/
def shrink : SequenceAct σ α Unit := do
  let s ← Act.held
  if s.capacity = s.len then
    return
  if s.len = 0 then
    Act.hold { s with region := .empty }
    Act.inWorld (s.region.release E.toShape s.handle.allocator)
  else
    reallocate E s.len

end Growable.Sequence
