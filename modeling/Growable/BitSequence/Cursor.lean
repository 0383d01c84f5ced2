import Growable.BitSequence
import Growable.Sequence.Order

/-!
# Reading bits from both ends, and the order of bit sequences

A cursor yields the bits of a sequence from both ends until they meet.  Bit sequences are ordered as the
lists of their bits, `false` before `true`, and are equal when their lengths and words are.
-/

namespace Growable

/-- The bits from index `front` up to `back` of some words. -/
structure BitCursor where
  words : Array Word
  front : Nat
  back : Nat

namespace BitCursor

/-- The number of bits left. -/
def len (c : BitCursor) : Nat := c.back - c.front

/-- The least and the most bits still to come, which are the same. -/
def sizeHint (c : BitCursor) : Nat × Option Nat := (c.len, some c.len)

/-- The bit at an index of the words. -/
def bit (c : BitCursor) (index : Nat) : Bool := (Word.Run.bit? c.words index).getD false

/-- The first bit left, and the cursor behind it. -/
def next (c : BitCursor) : Option Bool × BitCursor :=
  if c.front = c.back then (none, c)
  else (some (c.bit c.front), { c with front := c.front + 1 })

/-- The last bit left, and the cursor before it. -/
def nextBack (c : BitCursor) : Option Bool × BitCursor :=
  if c.front = c.back then (none, c)
  else (some (c.bit (c.back - 1)), { c with back := c.back - 1 })

/-- All bits left, first one first. -/
def rest (c : BitCursor) : List Bool := (List.range' c.front c.len).map c.bit

end BitCursor

namespace BitSequence

/-- The cursor over all bits. -/
def cursor (s : BitSequence) : BitCursor := ⟨s.asWords, 0, s.len⟩

/-- Whether two sequences hold equal bits, whatever their storage. -/
def beq (s t : BitSequence) : Bool := s.len == t.len && s.asWords == t.asWords

/-- The order of two bit sequences. -/
def cmp (s t : BitSequence) : Ordering := lexicographic compare s.cursor.rest t.cursor.rest

/-- Any two bit sequences are comparable. -/
def partialCmp (s t : BitSequence) : Option Ordering := some (s.cmp t)

/-- What a bit sequence feeds to a hash: its length, then its words, preceded by their number. -/
def hashData (s : BitSequence) : List Nat :=
  s.len :: s.asWords.size :: s.asWords.toList.map BitVec.toNat

end BitSequence

end Growable
