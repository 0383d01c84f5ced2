import Growable.Proofs.Checked.BitSequence
import Growable.Proofs.Program.Representation
import Growable.BitSequence.Cursor

/-!
# Reading bits, checked

What a bit sequence is asked: the number of its set bits, which is added up word by word, and its bits, which
a cursor hands out from both ends.  The cursor over a valid sequence stays within the words until its ends
meet (`BitCursor.Within`), whichever end each move is at.
-/

namespace Growable

variable {σ α : Type}

namespace BitCursor

/-- The number of bits left. -/
def lenChecked (c : BitCursor) : Option Nat := Size.sub? c.back c.front

/-- The first bit left, and the cursor behind it. -/
def nextChecked (c : BitCursor) : Option (Option Bool × BitCursor) :=
  if c.front = c.back then some (none, c)
  else do
    let value ← Word.Run.bitChecked c.words c.front
    let front ← Size.add? c.front 1
    return (some value, { c with front })

/-- The last bit left, and the cursor before it. -/
def nextBackChecked (c : BitCursor) : Option (Option Bool × BitCursor) :=
  if c.front = c.back then some (none, c)
  else do
    let back ← Size.sub? c.back 1
    let value ← Word.Run.bitChecked c.words back
    return (some value, { c with back })

/-- A move of a cursor, at its front or at its back. -/
def step (c : BitCursor) (front : Bool) : Option Bool × BitCursor :=
  if front then c.next else c.nextBack

/-- A move of a cursor, which is asked first how many bits are left. -/
def stepChecked (c : BitCursor) (front : Bool) : Option (Option Bool × BitCursor) := do
  let _ ← c.lenChecked
  if front then c.nextChecked else c.nextBackChecked

/-- The bits that the moves of a cursor come to, one after the other. -/
def walk (c : BitCursor) : List Bool → List (Option Bool)
  | [] => []
  | front :: moves => (c.step front).1 :: walk (c.step front).2 moves

/-- The bits that the moves of a cursor come to. -/
def walkChecked (c : BitCursor) : List Bool → Option (List (Option Bool))
  | [] => some []
  | front :: moves => do
    let (bit, c) ← c.stepChecked front
    let bits ← walkChecked c moves
    return bit :: bits

/-- The ends are in order, and within words the bits of which can be counted. -/
structure Within (c : BitCursor) : Prop where
  front_le : c.front ≤ c.back
  back_le : c.back ≤ Word.size * c.words.size
  limit : Word.size * c.words.size ≤ Size.limit

variable {c : BitCursor}

/-- A bit within the words can be looked at. -/
theorem bitChecked_of_lt {index : Nat} (h : index < Word.size * c.words.size) :
    Word.Run.bitChecked c.words index = some (c.bit index) := by
  have hword : (Word.split index).1 < c.words.size := Nat.div_lt_of_lt_mul h
  rw [Word.Run.bitChecked_eq, bit]
  unfold Word.Run.bit?
  dsimp only
  rw [Array.getElem?_eq_getElem hword]
  rfl

/-- The first bit left is within the words, and the cursor stays so. -/
theorem Within.next (h : c.Within) : c.nextChecked = some c.next ∧ c.next.2.Within := by
  obtain ⟨hfront, hback, hlimit⟩ := h
  unfold nextChecked BitCursor.next
  by_cases hdone : c.front = c.back
  · rw [if_pos hdone, if_pos hdone]
    exact ⟨rfl, hfront, hback, hlimit⟩
  · have hlt : c.front < c.back := Nat.lt_of_le_of_ne hfront hdone
    rw [if_neg hdone, if_neg hdone, Word.bind_of_some (bitChecked_of_lt (hlt.trans_le hback)),
      Word.bind_of_some (Size.add?_of_le (Nat.le_trans hlt (hback.trans hlimit)))]
    exact ⟨rfl, hlt, hback, hlimit⟩

/-- The last bit left is within the words, and the cursor stays so. -/
theorem Within.nextBack (h : c.Within) : c.nextBackChecked = some c.nextBack ∧ c.nextBack.2.Within := by
  obtain ⟨hfront, hback, hlimit⟩ := h
  unfold nextBackChecked BitCursor.nextBack
  by_cases hdone : c.front = c.back
  · rw [if_pos hdone, if_pos hdone]
    exact ⟨rfl, hfront, hback, hlimit⟩
  · have hlt : c.front < c.back := Nat.lt_of_le_of_ne hfront hdone
    have hlast : c.back - 1 < Word.size * c.words.size := Nat.lt_of_lt_of_le (by omega) hback
    rw [if_neg hdone, if_neg hdone, Word.bind_of_some (Size.sub?_of_le (Nat.one_le_of_lt hlt)),
      Word.bind_of_some (bitChecked_of_lt hlast)]
    exact ⟨rfl, Nat.le_sub_one_of_lt hlt, hlast.le, hlimit⟩

/-- **Step.** -/
theorem Within.step (h : c.Within) (front : Bool) :
    c.stepChecked front = some (c.step front) ∧ (c.step front).2.Within := by
  rw [stepChecked, lenChecked, Word.bind_of_some (Size.sub?_of_le h.front_le), BitCursor.step]
  cases front with
  | true => exact h.next
  | false => exact h.nextBack

/-- **Run.**  A cursor can be moved on and on, at either end. -/
theorem Within.walk (h : c.Within) (moves : List Bool) : c.walkChecked moves = some (c.walk moves) := by
  induction moves generalizing c with
  | nil => rfl
  | cons front moves ih =>
      obtain ⟨hstep, hwithin⟩ := h.step front
      rw [walkChecked, Word.bind_of_some hstep]
      exact Word.bind_of_some (ih hwithin) _

end BitCursor

namespace BitSequence

/-- The number of set bits. -/
def countOnesChecked (s : BitSequence) : Option Nat := do
  let words ← s.asWordsChecked
  words.toList.foldlM (fun n word => Size.add? n word.count) 0

/-- As long as the sum is a size, so are those of the first words. -/
theorem foldlM_add_count (words : List Word) {n : Nat}
    (h : n + words.foldr (fun word k => word.count + k) 0 ≤ Size.limit) :
    words.foldlM (fun n word => Size.add? n word.count) n
      = some (n + words.foldr (fun word k => word.count + k) 0) := by
  induction words generalizing n with
  | nil => rfl
  | cons word rest ih =>
      rw [List.foldr_cons, ← Nat.add_assoc] at h ⊢
      rw [List.foldlM_cons, Word.bind_of_some (Size.add?_of_le ((Nat.le_add_right _ _).trans h))]
      exact ih h

variable {s : BitSequence} {w : World σ α} {m : Multiset (Asset α)}

/-- The count of ones stays below the length. -/
theorem Counted.countOnesChecked_eq (h : Counted m (s, w)) : s.countOnesChecked = some s.countOnes := by
  have hcount : s.countOnes ≤ Size.limit := by
    rw [countOnes_eq h.sound.valid]
    exact (List.count_le_length.trans_eq (length_bits s)).trans h.len_le
  have hsum := foldlM_add_count s.asWords.toList (n := 0) (by rwa [Nat.zero_add])
  rw [Nat.zero_add] at hsum
  rw [countOnesChecked, Word.bind_of_some (asWordsChecked_eq h.sound.valid)]
  exact hsum

/-- A cursor over a sequence starts within its words. -/
theorem Counted.cursor_within (h : Counted m (s, w)) : s.cursor.Within := by
  have hwords := Word.le_wordsFor s.len
  have hsize : s.asWords.size ≤ s.words.size := by
    rw [size_asWords h.sound.valid]
    exact Word.wordsFor_le.mpr h.sound.len_le
  refine ⟨Nat.zero_le _, ?_, ?_⟩
  · change s.len ≤ Word.size * s.asWords.size
    rw [size_asWords h.sound.valid, Nat.mul_comm]
    exact hwords
  · exact (Nat.mul_le_mul_left _ hsize).trans (words_le_limit h.capacity_le)

end BitSequence

end Growable
