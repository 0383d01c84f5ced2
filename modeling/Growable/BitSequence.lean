import Growable.Region
import Growable.Source
import Growable.Span
import Growable.Capacity
import Growable.Word.Run

/-!
# Bit sequences

A bit sequence packs its bits into words.  All words of its block are in use, so that bits can be moved
about as words; the bits past the length are kept cleared, so that growing means writing the new bits
alone, and comparing two sequences means comparing their words.

Here are the type, what can be asked of a bit sequence, and the access to single bits; the modules below
`BitSequence` hold the operations.
-/

namespace Growable

/-- A growable sequence of bits: its block, the words of the block, the number of bits, and its
handle. -/
structure BitSequence where
  block : Option Block
  words : Array Word
  len : Nat
  handle : Handle

/-- An operation on a bit sequence in its world. -/
abbrev BitAct (σ α β : Type) := Act (BitSequence × World σ α) β

/-- The space that a word takes in memory. -/
def Word.shape : Shape := ⟨8, 8⟩

/-- What can be done to a single bit that was picked out. -/
inductive BitChange where
  | get
  | set (value : Bool)
  | replace (value : Bool)
  | flip
  deriving DecidableEq

/-- The word after a change of one of its bits, and what the change answers: the bit for `get`, the
previous bit for `replace`, the new bit for `flip`, and nothing for `set`. -/
def BitChange.apply (change : BitChange) (word : Word) (place : Nat) : Option Bool × Word :=
  match change with
  | get => (some (word.isSet place), word)
  | set value => (none, word.assign place value)
  | replace value => (some (word.isSet place), word.assign place value)
  | flip => (some ((word.flip place).isSet place), word.flip place)

namespace BitSequence

variable {σ α : Type}

/-- The sequence without bits and without memory. -/
def empty (handle : Handle) : BitSequence := ⟨none, #[], 0, handle⟩

/-- The region of the words. -/
def region (s : BitSequence) : Region := ⟨s.words.size, s.block⟩

/-- Whether there are no bits. -/
def isEmpty (s : BitSequence) : Bool := s.len == 0

/-- The number of bits that the words can hold. -/
def capacity (s : BitSequence) : Nat := s.words.size * Word.size

/-- The most words that the handle admits, as far as their bits can be counted. -/
def maxWords (s : BitSequence) : Nat :=
  min (s.handle.maxSize Word.shape.bytes) (Size.limit / Word.size)

/-- The most bits that the handle admits. -/
def maxSize (s : BitSequence) : Nat := s.maxWords * Word.size

/-- The words in use. -/
def asWords (s : BitSequence) : Array Word := s.words.extract 0 (Word.wordsFor s.len)

/-- The number of set bits. -/
def countOnes (s : BitSequence) : Nat := s.asWords.toList.foldr (fun word n => word.count + n) 0

/-- The bits, first one first. -/
def bits (s : BitSequence) : List Bool :=
  (List.range s.len).map fun index => (Word.Run.bit? s.words index).getD false

/-- The length with `additional` more bits, if it can be represented. -/
def required (s : BitSequence) (additional : Nat) : Except SequenceError Nat :=
  match Size.add? s.len additional with
  | some n => .ok n
  | none => .error .capacityExceeded

/-- The bit at an index within the words. -/
def bit (index : Nat) : BitAct σ α Bool := do
  let s ← Act.held
  Act.ofOption .word (Word.Run.bit? s.words index)

/-- Changes the bit at an index within the words. -/
def changeBit (index : Nat) (change : BitChange) : BitAct σ α (Option Bool) := do
  let s ← Act.held
  let (word, place) := Word.split index
  let old ← Act.ofOption .word s.words[word]?
  let (answer, new) := change.apply old place
  Act.hold { s with words := s.words.setIfInBounds word new }
  return answer

/-- Changes the words as a whole. -/
def changeWords (change : Array Word → Option (Array Word)) : BitAct σ α Unit := do
  let s ← Act.held
  let words ← Act.ofOption .word (change s.words)
  Act.hold { s with words }

/-- Declares how many bits there are. -/
def setLen (len : Nat) : BitAct σ α Unit := do
  let s ← Act.held
  Act.hold { s with len }

/-- The bit at an index. -/
def get (index : Nat) : BitAct σ α Bool := do
  let s ← Act.held
  Act.ofExcept (checkIndex index s.len)
  bit index

/-- Picks out the bit at an index, and changes it again and again; comes to what the changes answer. -/
def change (index : Nat) (changes : List BitChange) : BitAct σ α (List (Option Bool)) := do
  let s ← Act.held
  Act.ofExcept (checkIndex index s.len)
  changes.mapM (changeBit index)

/-- Sets the bit at an index to a value, and comes to the previous one. -/
def set (index : Nat) (value : Bool) : BitAct σ α (Option Bool) := do
  let s ← Act.held
  Act.ofExcept (checkIndex index s.len)
  changeBit index (.replace value)

end BitSequence

end Growable
