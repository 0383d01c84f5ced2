/-!
# Errors of a sequence

The three ways in which an operation on a sequence is refused.  Each is a cause; its wording stands in
`SequenceError.message` alone.  Errors are ordered by cause, and errors of bounds by index, then length.
-/

namespace Growable

/-- Why an operation on a sequence was refused. -/
inductive SequenceError where
  /-- The allocator declined the request for memory. -/
  | allocationFailure
  /-- The length or capacity asked for exceeds the maximum size of the sequence. -/
  | capacityExceeded
  /-- The index does not lie within a sequence of length `len`. -/
  | outOfBounds (index len : Nat)
  deriving DecidableEq

namespace SequenceError

/-- The wording of an error. -/
def message : SequenceError → String
  | allocationFailure => "memory allocation failed"
  | capacityExceeded => "capacity exceeds maximum size"
  | outOfBounds index len => s!"index {index} out of bounds for length {len}"

/-- The name of the cause of an error, as it is written out. -/
def kind : SequenceError → String
  | allocationFailure => "AllocationFailure"
  | capacityExceeded => "CapacityExceeded"
  | outOfBounds _ _ => "BoundsError"

/-- The text of an error for a reader of diagnostics: its cause, and what it carries. -/
def debugText : SequenceError → String
  | outOfBounds index len => s!"BoundsError \x7b index: {index}, len: {len} \x7d"
  | error => error.kind

/-- The place of a cause in the order of errors. -/
def rank : SequenceError → Nat
  | allocationFailure => 0
  | capacityExceeded => 1
  | outOfBounds _ _ => 2

/-- Errors are ordered by cause; two errors of bounds by index, then by length. -/
def compare : SequenceError → SequenceError → Ordering
  | outOfBounds i m, outOfBounds j n => (Ord.compare i j).then (Ord.compare m n)
  | e, f => Ord.compare e.rank f.rank

end SequenceError

end Growable
