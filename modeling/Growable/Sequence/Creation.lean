import Growable.Sequence.Resize

/-!
# Creation

New sequences: without elements but with room, from clones of given elements, and as a copy of another
sequence.  A sequence that could not be completed is disposed of.
-/

namespace Growable.Sequence

variable {σ α : Type} (E : Element σ α)

/-- Works on a new sequence, and comes to it; it is disposed of when the work is refused or faults. -/
def build {β : Type} (handle : Handle) (work : SequenceAct σ α β) :
    Act (World σ α) (Sequence α × β) :=
  Act.owning (empty handle) (fun unwinding s => s.dispose E unwinding) work

/-- A sequence without elements, with room for exactly `capacity` of them. -/
def withCapacity (capacity : Nat) (handle : Handle) : Act (World σ α) (Sequence α) := do
  let (s, _) ← build E handle (reserve E capacity)
  return s

/-- A sequence of `count` clones of an element. -/
def replicate (count : Nat) (x : α) (handle : Handle) : Act (World σ α) (Sequence α) := do
  Act.ofExcept (Capacity.check count (handle.maxSize E.bytes))
  let staging ← Staging.allocate E handle.allocator count
  let staging ← staging.extend E (fun _ => E.clone x) 0 count
  let (region, items) ← staging.adopt
  return ⟨region, items, handle⟩

/-- A copy of a sequence: clones of its elements in a region of exactly their number, under the same
handle. -/
def copy (s : Sequence α) : Act (World σ α) (Sequence α) := do
  let staging ← Staging.allocate E s.handle.allocator s.len
  let staging ← staging.extend E (fun k => do E.clone (← Act.ofOption .source s.items[k]?)) 0 s.len
  let (region, items) ← staging.adopt
  return ⟨region, items, s.handle⟩

/-- A copy that the caller takes for granted: a refusal is a fault. -/
def copyDemanded (s : Sequence α) : Act (World σ α) (Sequence α) := fun w =>
  match s.copy E w with
  | .refused e w => .faulted (.copyRefused e) w
  | outcome => outcome

end Growable.Sequence
