import Growable.Sequence.Creation

/-!
# Reading a sequence

A sequence is read from an iterator over items, each of which is an element or is not valid; the iterator
may also fault.  A hint may say how many items there are; it is not trusted beyond `Sequence.hintLimit`
elements, and it decides nothing but how much room is made ahead.  A sequence that cannot be read to the end
is disposed of.

What is written of a sequence is the list of its elements in order, which is `Sequence.items`.
-/

namespace Growable.Sequence

variable {σ α : Type} (E : Element σ α)

/-- The most elements for which room is made ahead on a hint. -/
def hintLimit : Nat := 4096

/-- Makes room ahead on a hint, if there is one. -/
def reserveHinted (hint : Option Nat) : SequenceAct σ α Unit := do
  let s ← Act.held
  match hint with
  | none => return
  | some n => reserve E (min n (min hintLimit (s.maxSize E)))

/-- Reads a sequence from items, or nothing if one of them is not valid. -/
def read (hint : Option Nat) (items : Feed (Option α)) (handle : Handle) :
    Act (World σ α) (Option (Sequence α)) := do
  let (s, valid) ← build E handle do
    reserveHinted E hint
    items.pushValid (push E)
  if valid then
    return some s
  s.dispose E false
  return none

end Growable.Sequence
