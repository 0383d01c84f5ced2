import Growable.BitSequence.Storage

/-!
# Inserting and removing bits

Bits behind a position are moved as runs, up for an insertion (`openWindow`) and down for a removal
(`closeWindow`).  Removing never gives memory back.  Whatever leaves the sequence is cleared, so that the
bits past the length are clear after every operation.

An iterator does not say how many bits it will yield; they are put at the end one by one, and rotated
into place by three reversals in the end.
-/

namespace Growable.BitSequence

variable {σ α : Type}

/-- Puts a bit at the end. -/
def push (value : Bool) : BitAct σ α Unit := do
  let s ← Act.held
  if s.len = s.capacity then
    reserveMore 1
  let _ ← changeBit s.len (.replace value)
  setLen (s.len + 1)

/-- Takes the last bit away, if there is one. -/
def pop : BitAct σ α (Option Bool) := do
  let s ← Act.held
  if s.len = 0 then
    return none
  setLen (s.len - 1)
  changeBit (s.len - 1) (.replace false)

/-- Keeps at most the first `n` bits. -/
def truncate (n : Nat) : BitAct σ α Unit := do
  let s ← Act.held
  if s.len ≤ n then
    return
  changeWords (Word.Run.fill false n s.len)
  setLen n

/-- Takes all bits away, and keeps the words. -/
def clear : BitAct σ α Unit := truncate 0

/-- Brings the sequence to a length, with copies of a bit where some are missing. -/
def resize (n : Nat) (value : Bool) : BitAct σ α Unit := do
  let s ← Act.held
  if n ≤ s.len then
    truncate n
  else
    reserve n
    changeWords (Word.Run.fill value s.len n)
    setLen n

/-- Moves the bits from a position on up by `count`; the bits in between are left to be written. -/
def openWindow (position count : Nat) : BitAct σ α Unit := do
  let s ← Act.held
  Act.ofExcept (checkPosition position s.len)
  if count = 0 then
    return
  reserveMore count
  changeWords fun words => Word.Run.move words position (position + count) (s.len - position)
  setLen (s.len + count)

/-- Moves the bits from `stop` on down to `start`, and clears the bits that this frees. -/
def closeWindow (start stop : Nat) : BitAct σ α Unit := do
  let s ← Act.held
  if start = stop then
    return
  changeWords fun words => Word.Run.move words stop start (s.len - stop)
  let len := s.len - (stop - start)
  changeWords (Word.Run.fill false len s.len)
  setLen len

/-- Writes bits one by one from an index on. -/
def write (index : Nat) : List Bool → BitAct σ α Unit
  | [] => return
  | value :: rest => do
    let _ ← changeBit index (.replace value)
    write (index + 1) rest

/-- Puts `count` copies of a bit at a position. -/
def insertCopies (position count : Nat) (value : Bool) : BitAct σ α Unit := do
  openWindow position count
  changeWords (Word.Run.fill value position (position + count))

/-- Puts a bit at a position. -/
def insert (position : Nat) (value : Bool) : BitAct σ α Unit :=
  insertCopies position 1 value

/-- Puts some bits at a position. -/
def insertAll (position : Nat) (values : List Bool) : BitAct σ α Unit := do
  openWindow position values.length
  write position values

/-- Puts some bits at the end. -/
def extendAll (values : List Bool) : BitAct σ α Unit := do
  let s ← Act.held
  insertAll s.len values

/-- Puts what an iterator yields at the end, one by one. -/
def pushFeed : Feed Bool → BitAct σ α Unit
  | .finish => Act.inWorld (World.record .ended)
  | .raise message => do
    Act.inWorld (World.record .feedFaulted)
    Act.fault (.raised message)
  | .yield value rest => do
    Act.inWorld (World.record .yielded)
    push value
    pushFeed rest

/-- Puts what an iterator yields at a position.  If a bit is refused, the ones before it are taken away
again. -/
def insertFeed (position : Nat) (feed : Feed Bool) : BitAct σ α Unit := do
  let before ← Act.held
  Act.ofExcept (checkPosition position before.len)
  Act.onRefusal (pushFeed feed) do
    let s ← Act.held
    Act.inWorld (World.note (.interruptedBits (s.len - before.len)))
    truncate before.len
  let s ← Act.held
  changeWords (Word.Run.reverse position before.len)
  changeWords (Word.Run.reverse before.len s.len)
  changeWords (Word.Run.reverse position s.len)

/-- Puts what an iterator yields at the end. -/
def extendFeed (feed : Feed Bool) : BitAct σ α Unit := do
  let s ← Act.held
  insertFeed s.len feed

/-- Takes the bit at an index away. -/
def erase (index : Nat) : BitAct σ α Bool := do
  let s ← Act.held
  Act.ofExcept (checkIndex index s.len)
  let value ← bit index
  closeWindow index (index + 1)
  return value

/-- Takes the bits of a span away. -/
def eraseSpan (span : Span) : BitAct σ α Unit := do
  let s ← Act.held
  let (start, stop) ← Act.ofExcept (span.within s.len)
  closeWindow start stop

end Growable.BitSequence
