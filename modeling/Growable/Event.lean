/-!
# Events

The trace of a world lists, in order, everything that the storage asked of others: requests to
allocators, calls of element code, of closures and of iterators, elements that changed hands, and notes
for a reader of the log.

An element enters the storage when it is `received`, `cloned` or `defaulted`; it leaves when it is
`dropped` or `handed` out.  An element that is `overwritten` by a clone of another leaves, and the
element that it becomes enters; so it is when the overwriting faults, which may leave the old element or
another one.  `Event.entering` and `Event.leaving` read this off an event, so that the
elements in the storage can be counted from the trace alone.
-/

namespace Growable

/-- The name of a block of memory; no two blocks of a world share one. -/
abbrev Block := Nat

/-- What the storage notes about its work. -/
inductive Note where
  /-- The slots move to a block of another size. -/
  | reallocating (old new : Nat)
  /-- The slots move to a larger block, for one more element at the end. -/
  | growingToPush (old new : Nat)
  /-- The slots move to a larger block, for `count` more elements somewhere. -/
  | growingToInsert (old new count : Nat)
  /-- The words move to a block of another size. -/
  | reallocatingWords (old new : Nat)
  /-- An insertion from an iterator was refused after some elements. -/
  | interrupted (count : Nat)
  /-- An insertion from an iterator was refused after some bits. -/
  | interruptedBits (count : Nat)
  deriving DecidableEq

/-- The wording of a note, after its level. -/
def Note.text : Note → String
  | reallocating old new => s!"debug: reallocating from {old} to {new} slots"
  | growingToPush old new => s!"debug: growing from {old} to {new} slots to push"
  | growingToInsert old new count => s!"debug: growing from {old} to {new} slots to insert {count}"
  | reallocatingWords old new => s!"debug: reallocating from {old} to {new} words"
  | interrupted count => s!"trace: insert_iter interrupted after {count} elements"
  | interruptedBits count => s!"trace: insert_iter interrupted after {count} bits"

/-- One entry of the trace. -/
inductive Event (α : Type) where
  /-- An allocator granted a block. -/
  | granted (place : Nat) (block : Block) (bytes : Nat)
  /-- An allocator declined a request. -/
  | declined (place : Nat) (bytes : Nat)
  /-- An allocator got a block back. -/
  | returned (place : Nat) (block : Block) (bytes : Nat)
  /-- A clone of `source` was made. -/
  | cloned (source made : α)
  /-- Cloning `source` faulted. -/
  | cloneFaulted (source : α)
  /-- An element was overwritten by a clone of `source`. -/
  | overwritten (old source made : α)
  /-- Overwriting an element by a clone of `source` faulted, and `left` is in its place. -/
  | overwriteFaulted (old source : α) {left : α}
  /-- A default element was made. -/
  | defaulted (made : α)
  /-- Making a default element faulted. -/
  | defaultFaulted
  /-- An element was dropped; the drop may have faulted, and the element is gone all the same. -/
  | dropped (element : α) (faulted : Bool)
  /-- A closure was called, and returned. -/
  | called
  /-- A closure was called, and faulted. -/
  | callFaulted
  /-- An iterator was asked, and yielded. -/
  | yielded
  /-- An iterator was asked, and had come to its end. -/
  | ended
  /-- An iterator was asked, and faulted. -/
  | feedFaulted
  /-- An element came into the storage from the caller. -/
  | received (element : α)
  /-- An element went from the storage to the caller. -/
  | handed (element : α)
  /-- The storage noted something. -/
  | noted (note : Note)
  deriving DecidableEq

/-- The elements that enter the storage with an event. -/
def Event.entering {α : Type} : Event α → List α
  | cloned _ made => [made]
  | overwritten _ _ made => [made]
  | @overwriteFaulted _ _ _ left => [left]
  | defaulted made => [made]
  | received element => [element]
  | _ => []

/-- The elements that leave the storage with an event. -/
def Event.leaving {α : Type} : Event α → List α
  | overwritten old _ _ => [old]
  | overwriteFaulted old _ => [old]
  | dropped element _ => [element]
  | handed element => [element]
  | _ => []

end Growable
