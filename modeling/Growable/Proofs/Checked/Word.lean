import Growable.Proofs.BitSequence.Storage
import Growable.Proofs.Checked

/-!
# Runs of bits, checked

The operations on words with all that they compute: a mask exists only for a place within a word, a shift is
by less than a word, a word is looked up by an index that is a size, and so are all the ends of the blocks
that a run is cut into.  Where the run lies within words, the bits of which can be counted, each of them is
the plain operation (`Word.Run.fillChecked_eq`, `Word.Run.moveChecked_eq`, `Word.Run.reverseChecked_eq`).
-/

namespace Growable.Word

/-- The word with a single bit set, at a place within the word. -/
def maskChecked (place : Nat) : Option Word := do
  guard (place < size)
  return mask place

/-- Whether a bit is set. -/
def isSetChecked (w : Word) (place : Nat) : Option Bool := do
  let bit ← maskChecked place
  return w &&& bit != zeros

/-- The word with a bit set or cleared. -/
def assignChecked (w : Word) (place : Nat) (value : Bool) : Option Word := do
  let bit ← maskChecked place
  return if value then w ||| bit else w &&& ~~~bit

/-- The word with a bit flipped. -/
def flipChecked (w : Word) (place : Nat) : Option Word := do
  let bit ← maskChecked place
  return w ^^^ bit

/-- The word with only the bits below a place kept. -/
def belowChecked (w : Word) (place : Nat) : Option Word := do
  let bit ← maskChecked place
  guard (1#64 ≤ bit)
  return w &&& (bit - 1#64)

/-- The word with its bits shifted up. -/
def shiftUpChecked (w : Word) (places : Nat) : Option Word := do
  guard (places < size)
  return w <<< places

/-- The word with its bits shifted down. -/
def shiftDownChecked (w : Word) (places : Nat) : Option Word := do
  guard (places < size)
  return w >>> places

/-- A check that holds is no hindrance. -/
theorem guard_bind {β : Type} {p : Prop} [Decidable p] (h : p) (next : Unit → Option β) :
    (guard p >>= next) = next () := by
  rw [guard, if_pos h]
  rfl

/-- What follows goes on with a value that exists. -/
theorem bind_of_some {β δ : Type} {value : Option β} {b : β} (h : value = some b) (next : β → Option δ) :
    (value >>= next) = next b := by
  rw [h]
  rfl

section Places

variable {place : Nat} (h : place < size)

include h

/-- A shift by a place within the word is a shift. -/
theorem maskChecked_eq : maskChecked place = some (mask place) := guard_bind h _

/-- A bit within the word can be read. -/
theorem isSetChecked_eq (w : Word) : isSetChecked w place = some (w.isSet place) :=
  bind_of_some (maskChecked_eq h) _

/-- A bit within the word can be written. -/
theorem assignChecked_eq (w : Word) (value : Bool) :
    assignChecked w place value = some (w.assign place value) :=
  bind_of_some (maskChecked_eq h) _

/-- A bit within the word can be flipped. -/
theorem flipChecked_eq (w : Word) : flipChecked w place = some (w.flip place) :=
  bind_of_some (maskChecked_eq h) _

/-- A mask is not zero, so that one can be taken away from it. -/
theorem one_le_mask : 1#64 ≤ mask place := by
  have hmod : place % size = place := Nat.mod_eq_of_lt h
  have hpow : 2 ^ place < 2 ^ 64 := Nat.pow_lt_pow_right (by decide) h
  rw [BitVec.le_def, mask, hmod, ← BitVec.twoPow_eq, BitVec.toNat_twoPow, Nat.mod_eq_of_lt hpow]
  exact Nat.one_le_two_pow

/-- The bits below a place within the word can be masked. -/
theorem belowChecked_eq (w : Word) : belowChecked w place = some (w.below place) :=
  (bind_of_some (maskChecked_eq h) _).trans (guard_bind (one_le_mask h) _)

/-- A word is shifted up by less than its size. -/
theorem shiftUpChecked_eq (w : Word) : shiftUpChecked w place = some (w <<< place) := guard_bind h _

/-- A word is shifted down by less than its size. -/
theorem shiftDownChecked_eq (w : Word) : shiftDownChecked w place = some (w >>> place) := guard_bind h _

end Places

namespace Run

/-- The word with its `count` lowest bits set. -/
def lowMaskChecked (count : Nat) : Option Word := do
  guard (0 < count ∧ count ≤ size)
  if size ≤ count then return ones else belowChecked ones count

/-- The bit at an index. -/
def bitChecked (words : Array Word) (index : Nat) : Option Bool := do
  let (word, place) := split index
  isSetChecked (← words[word]?) place

/-- The `count` bits from an index on, in the low bits of a word. -/
def loadChecked (words : Array Word) (index count : Nat) : Option Word := do
  let (word, shift) := split index
  let low ← shiftDownChecked (← words[word]?) shift
  let stop ← Size.add? shift count
  if shift ≠ 0 ∧ size < stop then
    let next ← Size.add? word 1
    let spill ← Size.sub? size shift
    let high ← shiftUpChecked (← words[next]?) spill
    return (low ||| high) &&& (← lowMaskChecked count)
  else
    return low &&& (← lowMaskChecked count)

/-- Overwrites the `count` bits from an index on by the low bits of a word. -/
def storeChecked (words : Array Word) (index count : Nat) (bits : Word) : Option (Array Word) := do
  let (word, shift) := split index
  let mask ← lowMaskChecked count
  let bits := bits &&& mask
  let first ← words[word]?
  let words := words.setIfInBounds word
    ((first &&& ~~~(← shiftUpChecked mask shift)) ||| (← shiftUpChecked bits shift))
  let stop ← Size.add? shift count
  if shift ≠ 0 ∧ size < stop then
    let spill ← Size.sub? size shift
    let next ← Size.add? word 1
    let second ← words[next]?
    return words.setIfInBounds next
      ((second &&& ~~~(← shiftDownChecked mask spill)) ||| (← shiftDownChecked bits spill))
  else
    return words

/-- A mask of at least one bit, and of no more than a word, is computed without a full shift. -/
theorem lowMaskChecked_eq {count : Nat} (hcount : 0 < count) (hblock : count ≤ size) :
    lowMaskChecked count = some (lowMask count) := by
  rw [lowMaskChecked, guard_bind ⟨hcount, hblock⟩, lowMask]
  by_cases hfull : size ≤ count
  · rw [if_pos hfull, if_pos hfull]
    rfl
  · rw [if_neg hfull, if_neg hfull]
    exact belowChecked_eq (Nat.lt_of_not_le hfull) ones

/-- The place of a bit is always within its word. -/
theorem bitChecked_eq (words : Array Word) (index : Nat) : bitChecked words index = bit? words index := by
  have hplace := (split_spec index).2
  unfold bitChecked bit?
  generalize split index = place at hplace ⊢
  obtain ⟨word, place⟩ := place
  dsimp only
  cases words[word]? with
  | none => rfl
  | some w => exact isSetChecked_eq hplace w

section Blocks

variable {words : Array Word} {index count : Nat} (hlimit : index ≤ Size.limit)

include hlimit

/-- A block of at most a word that begins within the words, in numbers. -/
theorem block_bounds (hblock : count ≤ size) (hindex : index < size * words.size) :
    (split index).1 < words.size ∧ (split index).2 + count ≤ Size.limit ∧
      (split index).1 + 1 ≤ Size.limit := by
  obtain ⟨hstart, hshift⟩ := split_spec index
  simp only [size, Size.limit] at *
  omega

/-- A block that begins within the words can be loaded, also across two of them. -/
theorem loadChecked_eq (hcount : 0 < count) (hblock : count ≤ size) (hindex : index < size * words.size) :
    loadChecked words index count = load words index count := by
  have hshift := (split_spec index).2
  obtain ⟨hword, hstop, hnext⟩ := block_bounds hlimit hblock hindex
  unfold loadChecked load
  generalize split index = place at hshift hword hstop hnext ⊢
  obtain ⟨word, shift⟩ := place
  simp only [Array.getElem?_eq_getElem hword, shiftDownChecked_eq hshift, Size.add?_of_le hstop,
    Size.add?_of_le hnext, Size.sub?_of_le hshift.le, lowMaskChecked_eq hcount hblock, Option.bind_eq_bind,
    Option.bind_some]
  by_cases hspill : shift ≠ 0 ∧ size < shift + count
  · have hplaces : size - shift < size := Nat.sub_lt (by decide) (Nat.pos_of_ne_zero hspill.1)
    rw [if_pos hspill, if_pos hspill]
    simp only [shiftUpChecked_eq hplaces, Option.bind_some]
  · rw [if_neg hspill, if_neg hspill]

/-- A block that begins within the words can be stored, also across two of them. -/
theorem storeChecked_eq (hcount : 0 < count) (hblock : count ≤ size) (hindex : index < size * words.size)
    (bits : Word) : storeChecked words index count bits = store words index count bits := by
  have hshift := (split_spec index).2
  obtain ⟨hword, hstop, hnext⟩ := block_bounds hlimit hblock hindex
  unfold storeChecked store
  generalize split index = place at hshift hword hstop hnext ⊢
  obtain ⟨word, shift⟩ := place
  simp only [Array.getElem?_eq_getElem hword, shiftUpChecked_eq hshift, Size.add?_of_le hstop,
    Size.add?_of_le hnext, Size.sub?_of_le hshift.le, lowMaskChecked_eq hcount hblock, Option.bind_eq_bind,
    Option.bind_some]
  by_cases hspill : shift ≠ 0 ∧ size < shift + count
  · have hplaces : size - shift < size := Nat.sub_lt (by decide) (Nat.pos_of_ne_zero hspill.1)
    rw [if_pos hspill, if_pos hspill]
    simp only [shiftDownChecked_eq hplaces, Option.bind_some]
  · rw [if_neg hspill, if_neg hspill]

end Blocks

/-! ## Whole runs -/

/-- Moves a run of bits down, lowest block first; `offset` bits are moved already. -/
def moveDownChecked (source destination count : Nat) (offset : Nat) (words : Array Word) :
    Option (Array Word) :=
  if offset < count then do
    let _ ← Size.sub? count offset
    let block := min size (count - offset)
    let readAt ← Size.add? source offset
    let bits ← loadChecked words readAt block
    let writeAt ← Size.add? destination offset
    let words ← storeChecked words writeAt block bits
    let _ ← Size.add? offset block
    moveDownChecked source destination count (offset + block) words
  else
    some words
termination_by count - offset
decreasing_by simp only [size]; omega

/-- Moves a run of bits up, highest block first; `remaining` bits are not moved yet. -/
def moveUpChecked (source destination : Nat) (remaining : Nat) (words : Array Word) : Option (Array Word) :=
  if remaining = 0 then
    some words
  else do
    let block := min size remaining
    let _ ← Size.sub? remaining block
    let rest := remaining - block
    let readAt ← Size.add? source rest
    let bits ← loadChecked words readAt block
    let writeAt ← Size.add? destination rest
    let words ← storeChecked words writeAt block bits
    moveUpChecked source destination rest words
termination_by remaining
decreasing_by simp only [size]; omega

/-- Moves the `count` bits from `source` on to `destination`. -/
def moveChecked (words : Array Word) (source destination count : Nat) : Option (Array Word) :=
  if source = destination then some words
  else if destination < source then moveDownChecked source destination count 0 words
  else moveUpChecked source destination count words

/-- Sets the bits from `start` up to `stop` to a value, word by word. -/
def fillChecked (value : Bool) (start stop : Nat) (words : Array Word) : Option (Array Word) :=
  if start < stop then do
    let _ ← Size.sub? size (split start).2
    let _ ← Size.sub? stop start
    let block := min (size - (split start).2) (stop - start)
    let words ← storeChecked words start block (if value then ones else zeros)
    let _ ← Size.add? start block
    fillChecked value (start + block) stop words
  else
    some words
termination_by stop - start
decreasing_by
  have := (split_spec start).2
  omega

/-- Reverses the order of the bits from `start` up to `stop`. -/
def reverseChecked (start stop : Nat) (words : Array Word) : Option (Array Word) := do
  let _ ← Size.sub? stop start
  if 1 < stop - start then
    let block := min size ((stop - start) / 2)
    let low ← loadChecked words start block
    let _ ← Size.sub? stop block
    let high ← loadChecked words (stop - block) block
    let spare ← Size.sub? size block
    let words ← storeChecked words start block (← shiftDownChecked high.reverse spare)
    let words ← storeChecked words (stop - block) block (← shiftDownChecked low.reverse spare)
    let _ ← Size.add? start block
    reverseChecked (start + block) (stop - block) words
  else
    some words
termination_by stop - start
decreasing_by simp only [size]; omega

section Runs

variable {words : Array Word} (hlimit : size * words.size ≤ Size.limit)

include hlimit

/-- A run within the words is filled block by block. -/
theorem fillChecked_eq (value : Bool) {start stop : Nat} (hstop : stop ≤ size * words.size) :
    fillChecked value start stop words = fill value start stop words := by
  induction start, words using fill.induct stop with
  | case1 start words hlt block ih =>
      have hplace := (split_spec start).2
      have hpos : 0 < min (size - (split start).2) (stop - start) := Nat.lt_min.mpr ⟨by omega, by omega⟩
      have hsmall := Nat.min_le_left (size - (split start).2) (stop - start)
      have hle := Nat.min_le_right (size - (split start).2) (stop - start)
      rw [fillChecked, fill, if_pos hlt, if_pos hlt, bind_of_some (Size.sub?_of_le hplace.le),
        bind_of_some (Size.sub?_of_le hlt.le)]
      dsimp only [block] at ih ⊢
      rw [storeChecked_eq (by omega) hpos (by omega) (by omega)]
      refine Option.bind_congr fun words' hstore => ?_
      have hsize := size_store hstore
      rw [bind_of_some (Size.add?_of_le (by omega))]
      exact ih words' (hsize ▸ hlimit) (hsize ▸ hstop)
  | case2 start words hge =>
      rw [fillChecked, fill, if_neg hge, if_neg hge]

/-- Each block of a run that moves down is within the words, at both places. -/
theorem moveDownChecked_eq {source destination count : Nat} (offset : Nat)
    (hsource : source + count ≤ size * words.size) (hdestination : destination + count ≤ size * words.size) :
    moveDownChecked source destination count offset words
      = moveDown (source + offset) (destination + offset) (count - offset) words := by
  induction offset, words using moveDownChecked.induct count with
  | case1 offset words hlt ih =>
      have hpos : 0 < min size (count - offset) := Nat.lt_min.mpr ⟨by decide, Nat.sub_pos_of_lt hlt⟩
      have hsmall := Nat.min_le_left size (count - offset)
      have hle := Nat.min_le_right size (count - offset)
      rw [moveDownChecked, moveDown, if_pos hlt, if_neg (Nat.sub_ne_zero_of_lt hlt),
        bind_of_some (Size.sub?_of_le hlt.le)]
      dsimp only at ih ⊢
      generalize min size (count - offset) = block at *
      rw [bind_of_some (Size.add?_of_le (by omega)), loadChecked_eq (by omega) hpos hsmall (by omega)]
      refine Option.bind_congr fun bits _ => ?_
      rw [bind_of_some (Size.add?_of_le (by omega)), storeChecked_eq (by omega) hpos hsmall (by omega)]
      refine Option.bind_congr fun words' hstore => ?_
      have hsize := size_store hstore
      rw [bind_of_some (Size.add?_of_le (by omega)), Nat.add_assoc, Nat.add_assoc, Nat.sub_sub]
      exact ih words' (hsize ▸ hlimit) (hsize ▸ hsource) (hsize ▸ hdestination)
  | case2 offset words hge =>
      rw [moveDownChecked, moveDown, if_neg hge, if_pos (Nat.sub_eq_zero_of_le (Nat.le_of_not_lt hge))]

/-- Each block of a run that moves up is within the words, at both places. -/
theorem moveUpChecked_eq {source destination : Nat} (remaining : Nat)
    (hsource : source + remaining ≤ size * words.size)
    (hdestination : destination + remaining ≤ size * words.size) :
    moveUpChecked source destination remaining words = moveUp source destination remaining words := by
  induction remaining, words using moveUp.induct with
  | case1 words => rw [moveUpChecked, moveUp, if_pos rfl, if_pos rfl]
  | case2 remaining words hsome block rest ih =>
      have hpos : 0 < min size remaining := Nat.lt_min.mpr ⟨by decide, Nat.pos_of_ne_zero hsome⟩
      have hsmall := Nat.min_le_left size remaining
      have hle := Nat.min_le_right size remaining
      rw [moveUpChecked, moveUp, if_neg hsome, if_neg hsome]
      dsimp only [rest, block] at ih ⊢
      generalize min size remaining = block at *
      rw [bind_of_some (Size.sub?_of_le hle), bind_of_some (Size.add?_of_le (by omega)),
        loadChecked_eq (by omega) hpos hsmall (by omega)]
      refine Option.bind_congr fun bits _ => ?_
      rw [bind_of_some (Size.add?_of_le (by omega)), storeChecked_eq (by omega) hpos hsmall (by omega)]
      refine Option.bind_congr fun words' hstore => ?_
      have hsize := size_store hstore
      exact ih words' (hsize ▸ hlimit) (by rw [hsize]; omega) (by rw [hsize]; omega)

/-- Runs within the words are moved, in whichever direction. -/
theorem moveChecked_eq {source destination count : Nat} (hsource : source + count ≤ size * words.size)
    (hdestination : destination + count ≤ size * words.size) :
    moveChecked words source destination count = move words source destination count := by
  unfold moveChecked move
  rw [moveDownChecked_eq hlimit 0 hsource hdestination, moveUpChecked_eq hlimit count hsource hdestination]
  rfl

/-- Blocks from both ends of a run meet within it. -/
theorem reverseChecked_eq {start stop : Nat} (hstart : start ≤ stop) (hstop : stop ≤ size * words.size) :
    reverseChecked start stop words = reverse start stop words := by
  induction start, stop, words using reverse.induct with
  | case1 start stop words hlong block ih =>
      have hpos : 0 < min size ((stop - start) / 2) := Nat.lt_min.mpr ⟨by decide, by omega⟩
      have hsmall := Nat.min_le_left size ((stop - start) / 2)
      have hle := Nat.min_le_right size ((stop - start) / 2)
      rw [reverseChecked, reverse, bind_of_some (Size.sub?_of_le hstart), if_pos hlong, if_pos hlong]
      dsimp only [block] at ih ⊢
      generalize min size ((stop - start) / 2) = block at *
      have hspare : size - block < size := Nat.sub_lt (by decide) hpos
      rw [loadChecked_eq (by omega) hpos hsmall (by omega)]
      refine Option.bind_congr fun low _ => ?_
      rw [bind_of_some (Size.sub?_of_le (by omega)), loadChecked_eq (by omega) hpos hsmall (by omega)]
      refine Option.bind_congr fun high _ => ?_
      rw [bind_of_some (Size.sub?_of_le hsmall), bind_of_some (shiftDownChecked_eq hspare _),
        storeChecked_eq (by omega) hpos hsmall (by omega)]
      refine Option.bind_congr fun words₁ hstore => ?_
      have hsize := size_store hstore
      rw [bind_of_some (shiftDownChecked_eq hspare _), storeChecked_eq (by omega) hpos hsmall (by rw [hsize]; omega)]
      refine Option.bind_congr fun words₂ hstore' => ?_
      have hsize' := size_store hstore'
      rw [bind_of_some (Size.add?_of_le (by omega))]
      exact ih words₂ (by rw [hsize', hsize]; exact hlimit) (by omega) (by rw [hsize', hsize]; omega)
  | case2 start stop words hshort =>
      rw [reverseChecked, reverse, bind_of_some (Size.sub?_of_le hstart), if_neg hshort, if_neg hshort]

end Runs

end Run

end Growable.Word
