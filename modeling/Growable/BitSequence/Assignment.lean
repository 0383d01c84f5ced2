import Growable.BitSequence.Content

/-!
# Assignment of bits

The contents of a bit sequence are replaced by others: by copies of a bit, by given bits, by what an
iterator yields, or by the contents of another bit sequence, which are copied (`copyFrom`) or moved
(`moveFrom`).  The handle comes along with a copy if it propagates; if it does and blocks cannot pass
between the two allocators, a complete copy takes the place of the old contents.
-/

namespace Growable.BitSequence

variable {σ α : Type}

/-- Replaces the contents by `count` copies of a bit. -/
def assignCopies (count : Nat) (value : Bool) : BitAct σ α Unit := do
  reserve count
  changeWords (Word.Run.fill value 0 count)
  truncate count
  setLen count

/-- Replaces the contents by some bits. -/
def assignAll (values : List Bool) : BitAct σ α Unit := do
  reserve values.length
  write 0 values
  truncate values.length
  setLen values.length

/-- A sequence of `count` copies of a bit. -/
def replicate (count : Nat) (value : Bool) (handle : Handle) : Act (World σ α) BitSequence := do
  let (s, _) ← build handle (assignCopies count value)
  return s

/-- A sequence of some bits. -/
def ofList (values : List Bool) (handle : Handle) : Act (World σ α) BitSequence := do
  let (s, _) ← build handle (assignAll values)
  return s

/-- Replaces the contents by what an iterator yields. -/
def assignFeed (feed : Feed Bool) : BitAct σ α Unit := do
  clear
  pushFeed feed

/-- Overwrites the first words. -/
def writeWords (source : Array Word) : BitAct σ α Unit :=
  changeWords fun words =>
    if source.size ≤ words.size then some (source ++ words.extract source.size words.size)
    else none

/-- Replaces the contents by another bit sequence's, and the handle if that one propagates. -/
def copyFrom (other : BitSequence) : BitAct σ α Unit := do
  let s ← Act.held
  if other.handle.propagates && !s.handle.isEquivalent other.handle then
    let copied ← Act.inWorld other.copy
    Act.hold copied
    Act.inWorld s.dispose
  else
    reserve other.len
    writeWords other.asWords
    truncate other.len
    setLen other.len
    if other.handle.propagates then
      let s ← Act.held
      Act.hold { s with handle := other.handle }

/-- Moves the contents of the second bit sequence into the first, whose own words are released. -/
def moveFrom : Act ((BitSequence × BitSequence) × World σ α) Unit := do
  let (s, other) ← Act.held
  if s.handle.isEquivalent other.handle then
    Act.hold (s, { other with block := none, words := #[], len := 0 })
    Act.onFirst (install other.block other.words other.len)
  else
    let (block, words) ← Act.inWorld
      (allocateCopy s.handle.allocator other.asWords other.asWords.size)
    Act.onFirst (install block words other.len)
    Act.onSecond clear

/-- The most bits for which room is made ahead on a hint. -/
def hintLimit : Nat := 65536

/-- Makes room ahead on a hint; none counts as zero. -/
def reserveHinted (hint : Option Nat) : BitAct σ α Unit := do
  let s ← Act.held
  reserve (min (hint.getD 0) (min hintLimit s.maxSize))

/-- Reads a bit sequence from items, or nothing if one of them is not valid. -/
def read (hint : Option Nat) (items : Feed (Option Bool)) (handle : Handle) :
    Act (World σ α) (Option BitSequence) := do
  let (s, valid) ← build handle do
    reserveHinted hint
    items.pushValid push
  if valid then
    return some s
  s.dispose
  return none

end Growable.BitSequence
