import Growable.SequenceError

/-!
# Faults

A fault is not an answer: it unwinds through the operation, up to whoever called it.  Faults are raised
by the code of the elements, by the closures and iterators that the caller hands in, and by the two
conveniences that have no error to answer with.  The last kind, a broken check, marks a place where the
storage relies on one of its own invariants.
-/

namespace Growable

/-- The invariants that the storage checks while it works. -/
inductive Check where
  /-- A block that is released has a size that could have been granted. -/
  | layout
  /-- A region that occupies memory knows its block. -/
  | block
  /-- New storage has room for the contents. -/
  | room
  /-- Contents are moved to another position only while there are none. -/
  | seek
  /-- Contents end before the slots do. -/
  | overflow
  /-- Contents begin at or after the first slot. -/
  | underflow
  /-- Finished contents begin at the first slot. -/
  | hole
  /-- A finished insertion has the length that was required. -/
  | length
  /-- An element is read, written or moved within the slots in use. -/
  | slot
  /-- A source of several elements is asked for one that it has. -/
  | source
  /-- A bit is read or written within the words of the storage. -/
  | word
  deriving DecidableEq

/-- The wording of a broken check. -/
def Check.message : Check → String
  | layout => "valid layout"
  | block => "block without an address"
  | room => "contents exceed the new storage"
  | seek => "seek on non-empty range"
  | overflow => "staging buffer overflow"
  | underflow => "staging buffer underflow"
  | hole => "adopting a buffer with a hole"
  | length => "contents differ from the required length"
  | slot => "slot out of bounds"
  | source => "source out of bounds"
  | word => "word out of bounds"

/-- What unwinds through an operation. -/
inductive Fault where
  /-- Raised by an element, a closure or an iterator, with a message of its own. -/
  | raised (message : String)
  /-- An element was demanded at an index where there is none. -/
  | indexOutOfBounds (index len : Nat)
  /-- A copy was demanded, and refused. -/
  | copyRefused (error : SequenceError)
  /-- An invariant of the storage does not hold. -/
  | broken (check : Check)
  deriving DecidableEq

/-- The wording of a fault. -/
def Fault.message : Fault → String
  | raised message => message
  | indexOutOfBounds index len => s!"index out of bounds: the len is {len} but the index is {index}"
  | copyRefused error => s!"successful clone: {error.debugText}"
  | broken check => check.message

end Growable
