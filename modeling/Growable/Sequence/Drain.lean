import Growable.Sequence.Creation

/-!
# Drains

A drain takes a sequence apart from both ends.  It owns the region and the elements that were not handed
out yet; when it is discarded, these are dropped front to back and the region is released.
-/

namespace Growable

/-- A sequence that is being taken apart: what is left of it. -/
structure Drain (α : Type) where
  region : Region
  rest : List α
  handle : Handle

namespace Drain

variable {σ α : Type} (E : Element σ α)

/-- The drain of a whole sequence. -/
def of (s : Sequence α) : Drain α := ⟨s.region, s.items, s.handle⟩

/-- The number of elements left. -/
def len (d : Drain α) : Nat := d.rest.length

/-- The least and the most elements still to come, which are the same. -/
def sizeHint (d : Drain α) : Nat × Option Nat := (d.len, some d.len)

/-- Hands out the first element left. -/
def next : Act (Drain α × World σ α) (Option α) := do
  let d ← Act.held
  match d.rest with
  | [] => return none
  | x :: rest =>
    Act.hold { d with rest }
    Act.inWorld (World.hand x)
    return some x

/-- Hands out the last element left. -/
def nextBack : Act (Drain α × World σ α) (Option α) := do
  let d ← Act.held
  match d.rest.getLast? with
  | none => return none
  | some x =>
    Act.hold { d with rest := d.rest.dropLast }
    Act.inWorld (World.hand x)
    return some x

/-- Drops what is left, then releases the region, even if a drop faults. -/
def dispose (unwinding : Bool) (d : Drain α) : Act (World σ α) Unit :=
  (E.dropAll unwinding d.rest).ensuring fun _ => d.region.release E.toShape d.handle.allocator

end Drain

end Growable
