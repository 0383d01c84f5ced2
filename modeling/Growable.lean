import Growable.Size
import Growable.SequenceError
import Growable.Span
import Growable.Capacity
import Growable.Allocator
import Growable.Fault
import Growable.Act
import Growable.Event
import Growable.World
import Growable.Element
import Growable.Source
import Growable.Sequence.Insertion
import Growable.Sequence.Assignment
import Growable.Sequence.Drain
import Growable.Sequence.Reading
import Growable.Sequence.Order
import Growable.Word.Run
import Growable.BitSequence.Assignment
import Growable.BitSequence.Cursor
import Growable.Text.Quoted
import Growable.Text.Json.Reader
import Growable.Probe
import Growable.Program.Workspace
import Growable.Proofs.Post
import Growable.Proofs.Invariant
import Growable.Proofs.Custody
import Growable.Proofs.Custody.Primitive
import Growable.Proofs.Custody.Staging
import Growable.Proofs.Custody.Blocks
import Growable.Proofs.Evolution
import Growable.Proofs.Sequence.Removal
import Growable.Proofs.Sequence.Insertion
import Growable.Proofs.Sequence.Creation
import Growable.Proofs.Sequence.Assignment
import Growable.Proofs.Sequence.Transfer
import Growable.Proofs.Sequence.Evolution
import Growable.Proofs.Word
import Growable.Proofs.Word.Run
import Growable.Proofs.Word.Reversal
import Growable.Proofs.BitSequence.Evolution
import Growable.Proofs.Program.Representation
import Growable.Proofs.Program.Custody
import Growable.Proofs.Sequence.Refinement
import Growable.Proofs.Program.Lists
import Growable.Proofs.Program.Steps
import Growable.Proofs.Program.BitRefinement
import Growable.Proofs.Program.ElementRefinement
import Growable.Proofs.Program.Evolution
import Growable.Proofs.Program.Accounting
import Growable.Proofs.Program.Limits
import Growable.Proofs.Program.Demand
import Growable.Proofs.Program.Quota
import Growable.Proofs.Program.Uniform
import Growable.Proofs.Program.Reservation
import Growable.Proofs.Program.SelfAllocated
import Growable.Proofs.Program.Comparison
import Growable.Proofs.Program.Extension
import Growable.Proofs.Refusal
import Growable.Proofs.Sequence.Refusal
import Growable.Proofs.BitSequence.Refusal
import Growable.Proofs.Program.Refusal
import Growable.Proofs.Unwinding
import Growable.Proofs.Sequence.Unwinding
import Growable.Proofs.Program.Unwinding
import Growable.Proofs.Granting
import Growable.Proofs.Reading
import Growable.Proofs.Sequence.Reading
import Growable.Proofs.BitSequence.Reading
import Growable.Proofs.Program.Reading
import Growable.Proofs.Checked
import Growable.Proofs.Checked.Staging
import Growable.Proofs.Checked.Sequence
import Growable.Proofs.Checked.Insertion
import Growable.Proofs.Checked.Feed
import Growable.Proofs.Checked.Creation
import Growable.Proofs.Checked.Assignment
import Growable.Proofs.Checked.Transfer
import Growable.Proofs.Checked.Word
import Growable.Proofs.Checked.BitContent
import Growable.Proofs.Checked.BitAssignment
import Growable.Proofs.Checked.BitCursor
import Growable.Proofs.Checked.Program
import Growable.Proofs.Program.Capacity
import Growable.Proofs.Program.Faults
import Growable.Proofs.Program.Safety
import Growable.Proofs.Trace
import Growable.Proofs.Sequence.Trace
import Growable.Proofs.Program.Interruption
import Growable.Proofs.Handover
import Growable.Proofs.Sequence.Handover
import Growable.Proofs.BitSequence.Handover
import Growable.Proofs.Program.Moving
import Growable.Proofs.Program.Copying
import Growable.Proofs.Program.Removal
import Growable.Proofs.Sequence.Replacement
import Growable.Proofs.Program.Replacement
import Growable.Proofs.Sequence.Renewal
import Growable.Proofs.Sequence.Supplanting
import Growable.Proofs.Program.Renewal
import Growable.Proofs.Capacity
import Growable.Proofs.Growth
import Growable.Proofs.Program.Growth
import Growable.Proofs.Word.Memory
import Growable.Proofs.Span
import Growable.Proofs.Sequence.Spans
import Growable.Proofs.BitSequence.InPlace
import Growable.Proofs.Program.Spans
import Growable.Proofs.Deque
import Growable.Proofs.Sequence.Draining
import Growable.Proofs.Program.Draining
import Growable.Proofs.BitSequence.Access
import Growable.Proofs.Program.BitReading
import Growable.Proofs.BitSequence.Rotation
