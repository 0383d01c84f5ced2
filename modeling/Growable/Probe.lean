import Growable.Element
import Growable.Codec

/-!
# Probes

A probe is an element whose code faults on demand, for watching what a sequence does with its elements.
It has a value and two flags: cloning it may fault, and so may dropping it.  Making a probe, as a clone,
over another one or as a default, also faults once a budget is spent; nothing is spent when it faults.

A clone has no flags.  A probe that is overwritten takes over the value of the other, and keeps its own
flags; if that faults, it is as it was.
-/

namespace Growable

/-- An element whose code faults on demand. -/
structure Probe where
  value : Int
  badClone : Bool
  badDrop : Bool
  deriving DecidableEq

namespace Probe

/-- How many probes can still be made, if there is a limit. -/
abbrev Budget := Option Nat

/-- A probe that never faults by itself. -/
def of (value : Int) : Probe := ⟨value, false, false⟩

/-- Makes a probe if the budget allows, or faults. -/
def make (made : Probe) (message : String) : Budget → Except String Probe × Budget
  | none => (.ok made, none)
  | some 0 => (.error message, some 0)
  | some (n + 1) => (.ok made, some n)

/-- The code of probes, which take eight bytes each. -/
def element : Element Budget Probe where
  bytes := 8
  align := 4
  onClone source budget :=
    let message := s!"probe c{source.value}"
    if source.badClone then (.error message, budget)
    else make (of source.value) message budget
  onOverwrite old source budget :=
    let message := s!"probe f{old.value}:{source.value}"
    if source.badClone then (.error message, budget)
    else make { old with value := source.value } message budget
  remains old _ _ := old
  onDefault budget := make (of 0) "probe n" budget
  onDrop p budget :=
    if p.badDrop then (.error s!"probe d{p.value}", budget) else (.ok (), budget)

/-- Probes are ordered by value, then by their flags. -/
def compare (p q : Probe) : Ordering :=
  (Ord.compare p.value q.value).then
    ((Ord.compare p.badClone q.badClone).then (Ord.compare p.badDrop q.badDrop))

/-- Probes are written as their values; a value of 32 bits is a probe without flags. -/
def codec : Codec Probe where
  debugText p := s!"Probe \x7b value: {p.value}, bad_clone: {p.badClone}, bad_drop: {p.badDrop} \x7d"
  toJson p := .integer p.value
  ofJson? value := ((Codec.integer (-0x80000000) 0x7FFFFFFF).ofJson? value).map of

end Probe

end Growable
