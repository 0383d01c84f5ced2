import Growable.Cells
import Growable.Source
import Growable.Staging
import Growable.Span
import Growable.Capacity

/-!
# Sequences

A sequence keeps its elements in the first slots of one region.  Here are the type, what can be asked of
a sequence, and the access to single elements; the modules below `Sequence` hold the operations.

An operation is an act on the sequence and its world: however it ends, the sequence is there to be
looked at.
-/

namespace Growable

/-- A growable sequence: its region, the elements in the first slots of it, and its handle. -/
structure Sequence (α : Type) where
  region : Region
  items : List α
  handle : Handle

/-- An operation on a sequence in its world. -/
abbrev SequenceAct (σ α β : Type) := Act (Sequence α × World σ α) β

namespace Sequence

variable {σ α : Type} (E : Element σ α)

/-- The sequence without elements and without memory. -/
def empty (handle : Handle) : Sequence α := ⟨.empty, [], handle⟩

/-- The number of elements. -/
def len (s : Sequence α) : Nat := s.items.length

/-- Whether there are no elements. -/
def isEmpty (s : Sequence α) : Bool := s.items.isEmpty

/-- The number of slots. -/
def capacity (s : Sequence α) : Nat := s.region.capacity

/-- The most elements that the handle admits. -/
def maxSize (s : Sequence α) : Nat := s.handle.maxSize E.bytes

/-- The length with `additional` more elements, if it can be represented. -/
def required (s : Sequence α) (additional : Nat) : Except SequenceError Nat :=
  match Size.add? s.len additional with
  | some n => .ok n
  | none => .error .capacityExceeded

theorem required_eq_ok {s : Sequence α} {additional n : Nat} (h : s.required additional = .ok n) :
    n = s.len + additional := by
  unfold required at h
  split at h
  · rename_i k hk
    cases h
    exact (Size.add?_eq_some_iff.mp hk).1.symm
  · cases h

theorem required_eq_error {s : Sequence α} {additional : Nat} {e : SequenceError}
    (h : s.required additional = .error e) : e = .capacityExceeded := by
  unfold required at h
  split at h
  · cases h
  · cases h
    rfl

/-- The element at an index. -/
def get (s : Sequence α) (index : Nat) : Except SequenceError α :=
  match s.items[index]? with
  | some x => .ok x
  | none => .error (.outOfBounds index s.len)

theorem get_eq_ok_iff {s : Sequence α} {index : Nat} {x : α} :
    s.get index = .ok x ↔ s.items[index]? = some x := by
  unfold get
  split <;> simp [*]

/-- Works on the element at an index, in its place. -/
def inSlot {β : Type} (index : Nat) (act : Act (α × World σ α) β) : SequenceAct σ α β := fun (s, w) =>
  match s.items[index]? with
  | none => .faulted (.broken .slot) (s, w)
  | some x =>
    match act (x, w) with
    | .done b (x, w) => .done b ({ s with items := s.items.set index x }, w)
    | .refused e (x, w) => .refused e ({ s with items := s.items.set index x }, w)
    | .faulted f (x, w) => .faulted f ({ s with items := s.items.set index x }, w)

/-- Puts an element in the place of the one at an index, and hands that one out. -/
def exchange (index : Nat) (x : α) : SequenceAct σ α α := do
  let s ← Act.held
  let old ← Act.ofExcept (s.get index)
  Act.hold { s with items := s.items.set index x }
  Act.inWorld do
    World.receive x
    World.hand old
  return old

/-- The element at an index, which the caller takes for granted. -/
def demand (index : Nat) : SequenceAct σ α α := do
  let s ← Act.held
  match s.get index with
  | .ok x => return x
  | .error _ => Act.fault (.indexOutOfBounds index s.len)

/-- Puts an element in the place of the one at an index, which the caller takes for granted. -/
def exchangeDemanded (index : Nat) (x : α) : SequenceAct σ α α := do
  let _ ← demand index
  exchange index x

/-- Carries an element through all slots: each takes what the one before it held, the first takes `x`,
and what the last one held is handed out. -/
def carry (x : α) : SequenceAct σ α α := do
  let s ← Act.held
  let shifted := x :: s.items
  let last := s.items.getLastD x
  Act.hold { s with items := shifted.take s.len }
  Act.inWorld do
    World.receive x
    World.hand last
  return last

end Sequence

end Growable
