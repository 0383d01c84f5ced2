import Growable.BitSequence

/-!
# The storage of a bit sequence

How a bit sequence changes its words: to just enough for what was asked for (`reserve`), to as many as
the growth policy says (`reserveMore`), to no more than it needs (`shrink`), and to none at all
(`dispose`).  Capacities are rounded up to whole words.  A refused change leaves the sequence as it was.
-/

namespace Growable.BitSequence

variable {σ α : Type}

/-- A block of `count` words that begins with the words of `source`, the others being zero. -/
def allocateCopy (allocator : Allocator) (source : Array Word) (count : Nat) :
    Act (World σ α) (Option Block × Array Word) := do
  Act.require (source.size ≤ count) .room
  let region ← Region.allocate Word.shape allocator count
  return (region.block, source ++ Array.replicate (count - source.size) Word.zeros)

/-- Takes new words that hold `len` bits, and releases the old ones. -/
def install (block : Option Block) (words : Array Word) (len : Nat) : BitAct σ α Unit := do
  let s ← Act.held
  Act.hold { s with block, words, len }
  Act.inWorld (s.region.release Word.shape s.handle.allocator)

/-- Releases the words. -/
def dispose (s : BitSequence) : Act (World σ α) Unit :=
  s.region.release Word.shape s.handle.allocator

/-- Moves the bits to a new block of exactly `count` words. -/
def reallocate (count : Nat) : BitAct σ α Unit := do
  let s ← Act.held
  let (block, words) ← Act.inWorld do
    Act.require (Word.wordsFor s.len ≤ count) .room
    World.note (.reallocatingWords s.words.size count)
    allocateCopy s.handle.allocator s.asWords count
  install block words s.len

/-- Makes room for `capacity` bits in all, unless there is enough already. -/
def reserve (capacity : Nat) : BitAct σ α Unit := do
  let s ← Act.held
  if capacity ≤ s.capacity then
    return
  Act.ofExcept (Capacity.check capacity s.maxSize)
  reallocate (Word.wordsFor capacity)

/-- Makes room for `additional` more bits by the growth policy, unless there is enough already. -/
def reserveMore (additional : Nat) : BitAct σ α Unit := do
  let s ← Act.held
  let required ← Act.ofExcept (s.required additional)
  if required ≤ s.capacity then
    return
  let capacity ← Act.ofExcept (Capacity.grow s.capacity required s.maxSize)
  reallocate (Word.wordsFor capacity)

/-- Gives up all words that hold no bits. -/
def shrink : BitAct σ α Unit := do
  let s ← Act.held
  let count := Word.wordsFor s.len
  if count = s.words.size then
    return
  if count = 0 then
    Act.hold { s with block := none, words := #[] }
    Act.inWorld (s.region.release Word.shape s.handle.allocator)
  else
    reallocate count

/-- Works on a new bit sequence, and comes to it; it is disposed of when the work is refused or
faults. -/
def build {β : Type} (handle : Handle) (work : BitAct σ α β) : Act (World σ α) (BitSequence × β) :=
  Act.owning (empty handle) (fun _ s => s.dispose) work

/-- A bit sequence without bits, with room for `capacity` of them. -/
def withCapacity (capacity : Nat) (handle : Handle) : Act (World σ α) BitSequence := do
  let (s, _) ← build handle (reserve capacity)
  return s

/-- A copy of a bit sequence, in just enough words, under the same handle. -/
def copy (s : BitSequence) : Act (World σ α) BitSequence := do
  let (block, words) ← allocateCopy s.handle.allocator s.asWords s.asWords.size
  return ⟨block, words, s.len, s.handle⟩

/-- A copy that the caller takes for granted: a refusal is a fault. -/
def copyDemanded (s : BitSequence) : Act (World σ α) BitSequence := fun w =>
  match s.copy w with
  | .refused e w => .faulted (.copyRefused e) w
  | outcome => outcome

end Growable.BitSequence
