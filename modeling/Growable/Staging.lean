import Growable.Region

/-!
# Staging

New contents of a sequence are built beside the old ones, in a region of their own, and take the place
of the old contents only once they are complete.  A staging area knows which of its slots are
constructed: the `elements` from slot `start` on.  First come the new elements, which may fault; the
elements that already exist are moved around them last.  When an element faults, the staging area is
discarded: what was constructed is dropped, then the region released.
-/

namespace Growable

/-- A region under construction, with the elements constructed from slot `start` on. -/
structure Staging (α : Type) where
  allocator : Allocator
  region : Region
  start : Nat
  elements : List α

namespace Staging

variable {σ α : Type} (E : Element σ α)

/-- The slot after the last constructed one. -/
def stop (s : Staging α) : Nat := s.start + s.elements.length

/-- A staging area of exactly `capacity` slots. -/
def allocate (allocator : Allocator) (capacity : Nat) : Act (World σ α) (Staging α) := do
  let region ← Region.allocate E.toShape allocator capacity
  return ⟨allocator, region, 0, []⟩

/-- Drops what was constructed, and releases the region. -/
def discard (unwinding : Bool) (s : Staging α) : Act (World σ α) Unit :=
  (E.dropAll unwinding s.elements).ensuring fun _ => s.region.release E.toShape s.allocator

/-- Places the construction, which has not begun, at a slot. -/
def seek (slot : Nat) (s : Staging α) : Act (World σ α) (Staging α) := do
  Act.require (s.elements = []) .seek
  Act.require (slot ≤ s.region.capacity) .seek
  return { s with start := slot }

/-- Constructs one more element at the end. -/
def append (make : Act (World σ α) α) (s : Staging α) : Act (World σ α) (Staging α) :=
  Act.onFault
    (do
      Act.require (s.stop < s.region.capacity) .overflow
      let x ← make
      return { s with elements := s.elements ++ [x] })
    (s.discard E true)

/-- Constructs `count` more elements, numbered from `k`, at the end. -/
def extend (make : Nat → Act (World σ α) α) (k : Nat) :
    Nat → Staging α → Act (World σ α) (Staging α)
  | 0, s => return s
  | count + 1, s => do
    let s ← s.append E (make k)
    extend make (k + 1) count s

/-- Moves existing elements in front of the constructed ones. -/
def moveBefore (existing : List α) (s : Staging α) : Act (World σ α) (Staging α) := do
  Act.require (existing.length ≤ s.start) .underflow
  return { s with start := s.start - existing.length, elements := existing ++ s.elements }

/-- Moves existing elements behind the constructed ones. -/
def moveAfter (existing : List α) (s : Staging α) : Act (World σ α) (Staging α) := do
  Act.require (existing.length ≤ s.region.capacity - s.stop) .overflow
  return { s with elements := s.elements ++ existing }

/-- Hands over the region and its contents, which begin at the first slot. -/
def adopt (s : Staging α) : Act (World σ α) (Region × List α) := do
  Act.require (s.start = 0) .hole
  return (s.region, s.elements)

end Staging

end Growable
