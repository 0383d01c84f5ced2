import Growable.Sequence.Storage

/-!
# Removal

Removing elements never asks for memory and never gives any back.  Elements that are handed out go to the
caller; the others are dropped front to back.  The elements that are kept stay in their order, also when
a drop faults: the length is lowered first, and the elements behind the removed ones close up last.
-/

namespace Growable.Sequence

variable {σ α : Type} (E : Element σ α)

/-- Hands out the last element, if there is one. -/
def pop : SequenceAct σ α (Option α) := do
  let s ← Act.held
  match s.items.getLast? with
  | none => return none
  | some x =>
    Act.hold { s with items := s.items.dropLast }
    Act.inWorld (World.hand x)
    return some x

/-- Hands out the element at an index. -/
def erase (index : Nat) : SequenceAct σ α α := do
  let s ← Act.held
  let x ← Act.ofExcept (s.get index)
  let cells := Cells.ofItems s.len s.items
  let items ← Act.ofOption .slot (cells.closeUp? index (index + 1) (s.len - index - 1))
  Act.hold { s with items }
  Act.inWorld (World.hand x)
  return x

/-- Keeps at most the first `n` elements, and drops the others. -/
def truncate (n : Nat) : SequenceAct σ α Unit := do
  let s ← Act.held
  if s.len ≤ n then
    return
  Act.hold { s with items := s.items.take n }
  Act.inWorld (E.dropAll false (s.items.drop n))

/-- Drops all elements, and keeps the region. -/
def clear : SequenceAct σ α Unit := truncate E 0

/-- Drops the elements of a span. -/
def eraseSpan (span : Span) : SequenceAct σ α Unit := do
  let s ← Act.held
  let (start, stop) ← Act.ofExcept (span.within s.len)
  if start = stop then
    return
  Act.hold { s with items := s.items.take start }
  let cells := Cells.ofItems s.len s.items
  let removed ← Act.ofOption .slot (cells.run? start (stop - start))
  (Act.inWorld (E.dropAll false removed)).ensuring fun _ => do
    let items ← Act.ofOption .slot (cells.closeUp? start stop (s.len - stop))
    Act.hold { s with items }

end Growable.Sequence
