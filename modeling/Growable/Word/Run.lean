import Growable.Word

/-!
# Runs of bits

A list of words is a list of bits, and the operations here work on runs of them: reading and writing up
to 64 bits at any index, moving a run onto another one, filling a run, and reversing it.  Each works in
blocks of at most a word, and has no result when it would touch a word that does not exist.

A run may overlap the run that it is moved onto.  It is moved lowest block first when it moves down, and
highest block first when it moves up, so that no block is overwritten before it is read.
-/

namespace Growable.Word.Run

/-- The word with its `count` lowest bits set; `count` is from 1 to 64. -/
def lowMask (count : Nat) : Word :=
  if size ≤ count then ones else ones.below count

/-- The bit at an index. -/
def bit? (words : Array Word) (index : Nat) : Option Bool :=
  let (word, place) := split index
  words[word]?.map (·.isSet place)

/-- The `count` bits from an index on, in the low bits of a word; `count` is from 1 to 64. -/
def load (words : Array Word) (index count : Nat) : Option Word := do
  let (word, shift) := split index
  let low := (← words[word]?) >>> shift
  if shift ≠ 0 ∧ size < shift + count then
    let high := (← words[word + 1]?) <<< (size - shift)
    return (low ||| high) &&& lowMask count
  else
    return low &&& lowMask count

/-- Overwrites the `count` bits from an index on by the low bits of a word; `count` is from 1 to 64. -/
def store (words : Array Word) (index count : Nat) (bits : Word) : Option (Array Word) := do
  let (word, shift) := split index
  let mask := lowMask count
  let bits := bits &&& mask
  let first ← words[word]?
  let words := words.setIfInBounds word ((first &&& ~~~(mask <<< shift)) ||| (bits <<< shift))
  if shift ≠ 0 ∧ size < shift + count then
    let spill := size - shift
    let second ← words[word + 1]?
    return words.setIfInBounds (word + 1) ((second &&& ~~~(mask >>> spill)) ||| (bits >>> spill))
  else
    return words

/-- Moves a run of bits down, lowest block first. -/
def moveDown (source destination : Nat) (count : Nat) (words : Array Word) : Option (Array Word) :=
  if count = 0 then
    some words
  else do
    let block := min size count
    let words ← store words destination block (← load words source block)
    moveDown (source + block) (destination + block) (count - block) words
termination_by count
decreasing_by simp only [size]; omega

/-- Moves a run of bits up, highest block first. -/
def moveUp (source destination : Nat) (count : Nat) (words : Array Word) : Option (Array Word) :=
  if count = 0 then
    some words
  else do
    let block := min size count
    let rest := count - block
    let words ← store words (destination + rest) block (← load words (source + rest) block)
    moveUp source destination rest words
termination_by count
decreasing_by simp only [size]; omega

/-- Moves the `count` bits from `source` on to `destination`; the two runs may overlap. -/
def move (words : Array Word) (source destination count : Nat) : Option (Array Word) :=
  if source = destination then some words
  else if destination < source then moveDown source destination count words
  else moveUp source destination count words

/-- Sets the bits from `start` up to `stop` to a value, word by word. -/
def fill (value : Bool) (start stop : Nat) (words : Array Word) : Option (Array Word) :=
  if start < stop then do
    let block := min (size - (split start).2) (stop - start)
    let words ← store words start block (if value then ones else zeros)
    fill value (start + block) stop words
  else
    some words
termination_by stop - start
decreasing_by
  have := (split_spec start).2
  omega

/-- Reverses the order of the bits from `start` up to `stop`: swaps the lowest and the highest block,
each reversed, until they meet. -/
def reverse (start stop : Nat) (words : Array Word) : Option (Array Word) :=
  if 1 < stop - start then do
    let block := min size ((stop - start) / 2)
    let low ← load words start block
    let high ← load words (stop - block) block
    let words ← store words start block (high.reverse >>> (size - block))
    let words ← store words (stop - block) block (low.reverse >>> (size - block))
    reverse (start + block) (stop - block) words
  else
    some words
termination_by stop - start
decreasing_by simp only [size]; omega

end Growable.Word.Run
