/-!
# Words

Bits are packed into words of 64, bit 0 being the lowest.  `Word.split` says where a bit of a sequence of
words lies, and `Word.wordsFor` how many words some bits need.

* `split_spec` — the word and the place in it determine the index again.
-/

namespace Growable

/-- Sixty-four bits. -/
abbrev Word := BitVec 64

namespace Word

/-- The number of bits in a word. -/
def size : Nat := 64

/-- The word without set bits. -/
def zeros : Word := 0#64

/-- The word with all bits set. -/
def ones : Word := BitVec.allOnes 64

/-- The word in which a bit lies, and its place there. -/
def split (index : Nat) : Nat × Nat := (index / size, index % size)

/-- The number of words that hold `bits` bits. -/
def wordsFor (bits : Nat) : Nat := (bits + (size - 1)) / size

theorem split_spec (index : Nat) :
    size * (split index).1 + (split index).2 = index ∧ (split index).2 < size := by
  simp only [split, size]
  omega

/-- The word with a single bit set. -/
def mask (place : Nat) : Word := 1#64 <<< (place % size)

/-- Whether a bit is set. -/
def isSet (w : Word) (place : Nat) : Bool := w &&& mask place != zeros

/-- The word with a bit set or cleared. -/
def assign (w : Word) (place : Nat) (value : Bool) : Word :=
  if value then w ||| mask place else w &&& ~~~mask place

/-- The word with a bit flipped. -/
def flip (w : Word) (place : Nat) : Word := w ^^^ mask place

/-- The word with only the bits below a place kept. -/
def below (w : Word) (place : Nat) : Word := w &&& (mask place - 1#64)

/-- The number of set bits. -/
def count (w : Word) : Nat := (List.range size).countP w.isSet

/-- The order of words is that of the numbers they denote. -/
def compare (v w : Word) : Ordering := Ord.compare v.toNat w.toNat

/-- The text of a word for a reader of diagnostics. -/
def debugText (w : Word) : String := s!"BitWord({w.toNat})"

/-- A word as hexadecimal digits, highest first. -/
def hex (w : Word) : String :=
  let digits := Nat.toDigits 16 w.toNat
  String.ofList (List.replicate (size / 4 - digits.length) '0' ++ digits)

end Word

end Growable
