import Mathlib.Tactic.Ring
import Growable.Word.Run

/-!
# The bits of a word

What the operations on a word do to each of its bits, which `BitVec.getLsbD` reads: the bit at a place is
the coefficient of that power of two; and how many words some bits need (`wordsFor_le`).
-/

namespace Growable.Word

theorem wordsFor_le {bits n : Nat} : wordsFor bits ≤ n ↔ bits ≤ n * size := by
  simp only [wordsFor, size]
  omega

theorem le_wordsFor (bits : Nat) : bits ≤ wordsFor bits * size := wordsFor_le.mp (Nat.le_refl _)

/-- More bits do not need fewer words. -/
theorem wordsFor_mono {m n : Nat} (h : m ≤ n) : wordsFor m ≤ wordsFor n :=
  wordsFor_le.mpr (h.trans (le_wordsFor n))

/-- Bits that fit into whole words still do when they are rounded up to whole words. -/
theorem wordsFor_mul_le {bits room : Nat} (hroom : size ∣ room) (hbits : bits ≤ room) :
    wordsFor bits * size ≤ room := by
  obtain ⟨n, rfl⟩ := hroom
  rw [Nat.mul_comm size] at hbits ⊢
  exact Nat.mul_le_mul_right size (wordsFor_le.mpr hbits)

/-- The mask of a place has that bit alone. -/
theorem getLsbD_mask (place j : Nat) :
    (mask place).getLsbD j = decide (j = place % size) := by
  have hlt : place % size < size := Nat.mod_lt _ (by decide)
  rw [mask, ← BitVec.twoPow_eq, BitVec.getLsbD_twoPow]
  simp only [size] at *
  grind

/-- A place is looked up modulo the size of a word. -/
theorem isSet_eq (w : Word) (place : Nat) : w.isSet place = w.getLsbD (place % size) := by
  have hlt : place % size < 64 := Nat.mod_lt _ (by decide)
  rw [isSet, mask, ← BitVec.twoPow_eq, BitVec.and_twoPow]
  cases h : w.getLsbD (place % size) with
  | false => simp [zeros]
  | true =>
      have hne : BitVec.twoPow 64 (place % size) ≠ 0#64 := by
        intro hz
        have := congrArg (fun v => v.getLsbD (place % size)) hz
        simp [hlt] at this
      simp [zeros, hne]

/-- Assigning a place changes that bit alone. -/
theorem getLsbD_assign (w : Word) {place : Nat} (hplace : place < size) (value : Bool) (j : Nat) :
    (w.assign place value).getLsbD j = if j = place then value else w.getLsbD j := by
  have hmod : place % size = place := Nat.mod_eq_of_lt hplace
  cases value with
  | true =>
    simp [assign, getLsbD_mask, hmod]
    grind
  | false => 
    simp [assign, getLsbD_mask, hmod]
    simp only [size] at *
    grind

/-- Flipping a place changes that bit alone. -/
theorem getLsbD_flip (w : Word) {place : Nat} (hplace : place < size) (j : Nat) :
    (w.flip place).getLsbD j = if j = place then !w.getLsbD j else w.getLsbD j := by
  have hmod : place % size = place := Nat.mod_eq_of_lt hplace
  simp [flip, getLsbD_mask, hmod]
  grind

/-- The bits from a place on are cleared. -/
theorem getLsbD_below (w : Word) {place : Nat} (hplace : place < size) (j : Nat) :
    (w.below place).getLsbD j = (w.getLsbD j && decide (j < place)) := by
  have hmod : place % size = place := Nat.mod_eq_of_lt hplace
  have hpow : 2 ^ place < 2 ^ 64 := Nat.pow_lt_pow_right (by decide) hplace
  have hmask : (mask place - 1#64).toNat = 2 ^ place - 1 := by
    have hone : (mask place).toNat = 2 ^ place := by
      rw [mask, hmod, ← BitVec.twoPow_eq, BitVec.toNat_twoPow, Nat.mod_eq_of_lt hpow]
    rw [BitVec.toNat_sub_of_le, hone]
    · rfl
    · rw [BitVec.le_def, hone]
      exact Nat.one_le_two_pow
  rw [below, BitVec.getLsbD_and]
  congr 1
  rw [BitVec.getLsbD, hmask, Nat.testBit_two_pow_sub_one]

/-- A filled word has one value at every place. -/
theorem getLsbD_filled (value : Bool) {p : Nat} (hp : p < size) :
    (if value then ones else zeros : Word).getLsbD p = value := by
  cases value with
  | true => exact BitVec.getLsbD_allOnes.trans (decide_eq_true hp)
  | false => exact BitVec.getLsbD_zero

namespace Run

/-- A low mask has the first bits. -/
theorem getLsbD_lowMask (count j : Nat) :
    (lowMask count).getLsbD j = (decide (j < count) && decide (j < size)) := by
  unfold lowMask
  by_cases hfull : size ≤ count
  · rw [if_pos hfull, ones, BitVec.getLsbD_allOnes]
    simp only [size] at *
    grind
  · rw [if_neg hfull, getLsbD_below _ (Nat.lt_of_not_le hfull), ones, BitVec.getLsbD_allOnes]
    simp only [size] at *
    grind

/-- Bits spliced in at a shift are read off behind it, and the others are left. -/
theorem getLsbD_splice_up (word bits : Word) (shift count : Nat) {p : Nat} (hp : p < size) :
    ((word &&& ~~~(lowMask count <<< shift)) ||| ((bits &&& lowMask count) <<< shift)).getLsbD p
      = if shift ≤ p ∧ p < shift + count then bits.getLsbD (p - shift) else word.getLsbD p := by
  rw [BitVec.getLsbD_or, BitVec.getLsbD_and, BitVec.getLsbD_not, BitVec.getLsbD_shiftLeft,
    BitVec.getLsbD_shiftLeft, BitVec.getLsbD_and, getLsbD_lowMask]
  simp only [size] at *
  by_cases hin : shift ≤ p ∧ p < shift + count
  · have h1 : ¬ p < shift := by omega
    have h2 : p - shift < count := by omega
    have h3 : p - shift < 64 := by omega
    simp [hin, hp, h1, h2, h3]
  · rw [if_neg hin]
    by_cases hlow : p < shift
    · simp [hp, hlow]
    · have h2 : ¬ p - shift < count := by omega
      simp [hp, hlow, h2]

/-- Bits that spill into the next word are read off its first places, and the others are left. -/
theorem getLsbD_splice_down (word bits : Word) (spill : Nat) {count p : Nat}
    (hblock : count ≤ size) (hp : p < size) :
    ((word &&& ~~~(lowMask count >>> spill)) ||| ((bits &&& lowMask count) >>> spill)).getLsbD p
      = if spill + p < count then bits.getLsbD (spill + p) else word.getLsbD p := by
  rw [BitVec.getLsbD_or, BitVec.getLsbD_and, BitVec.getLsbD_not, BitVec.getLsbD_ushiftRight,
    BitVec.getLsbD_ushiftRight, BitVec.getLsbD_and, getLsbD_lowMask]
  simp only [size] at *
  by_cases hin : spill + p < count
  · have hsize : spill + p < 64 := by omega
    simp [hin, hp, hsize]
  · simp [hin, hp]

end Run

end Growable.Word
