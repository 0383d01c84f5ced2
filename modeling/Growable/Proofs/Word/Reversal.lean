import Growable.Proofs.Word.Run

/-!
# Runs that are turned around

A run of bits is reversed in rounds.  A round swaps the lowest and the highest block of what is left of the
run, each of them reversed (`swapEnds`); what lies between them is left for the next one.  `Turns` counts the
rounds until nothing is left to swap.

Two neighbouring runs trade places by three reversals: each of them is turned around by itself, and then both
together.

* `reverse_spec` — every bit of a run comes to the place opposite to its own;
* `reverse_eq_some_iff` — there is one round for every 128 bits that there are to swap;
* `rotate_spec` — the bits of a run begin with what was in its middle.
-/

namespace Growable.Word.Run

variable {words words' : Array Word} {start stop block : Nat}

/-! ## A round -/

/-- The lowest and the highest block of a run trade places, each of them reversed. -/
def swapEnds (block start stop : Nat) (words : Array Word) : Option (Array Word) := do
  let low ← load words start block
  let high ← load words (stop - block) block
  let words ← store words start block (high.reverse >>> (size - block))
  store words (stop - block) block (low.reverse >>> (size - block))

/-- The length of the blocks that the next round swaps. -/
def endBlock (start stop : Nat) : Nat := min size ((stop - start) / 2)

/-- While there are two bits left, there is a round, and what is left then is reversed. -/
theorem reverse_of_long (h : 1 < stop - start) (words : Array Word) :
    reverse start stop words = swapEnds (endBlock start stop) start stop words >>=
      reverse (start + endBlock start stop) (stop - endBlock start stop) := by
  rw [reverse, if_pos h]
  simp only [swapEnds, bind_assoc]
  rfl

/-- A single bit is its own reversal. -/
theorem reverse_of_short (h : ¬ 1 < stop - start) (words : Array Word) :
    reverse start stop words = some words := by
  rw [reverse, if_neg h]

/-- The blocks of a round are not empty, and they do not meet. -/
theorem endBlock_bounds (h : 1 < stop - start) :
    0 < endBlock start stop ∧ endBlock start stop ≤ size ∧
      start + endBlock start stop ≤ stop - endBlock start stop := by
  simp only [endBlock, size]
  omega

/-- The `count` low bits of a word in the opposite order. -/
theorem getLsbD_reverse_shift (word : Word) {count j : Nat} (hcount : count ≤ size) (hj : j < count) :
    (word.reverse >>> (size - count)).getLsbD j = word.getLsbD (count - 1 - j) := by
  rw [BitVec.getLsbD_ushiftRight, BitVec.getLsbD_reverse, BitVec.getMsbD]
  simp only [size] at *
  have hplace : 64 - count + j < 64 := by omega
  have hopposite : 64 - 1 - (64 - count + j) = count - 1 - j := by omega
  rw [hopposite]
  simp [hplace]

/-- Two blocks that do not meet trade places, each of them in the opposite order. -/
theorem overlaid_swapped {low high : Word} (hsmall : block ≤ size) (hroom : start + block ≤ stop - block)
    (hlow : ∀ j, low.getLsbD j = (decide (j < block) && bitAt words (start + j)))
    (hhigh : ∀ j, high.getLsbD j = (decide (j < block) && bitAt words (stop - block + j)))
    (k : Nat) :
    overlaid
        (overlaid (bitAt words) start (start + block) fun i =>
          (high.reverse >>> (size - block)).getLsbD (i - start))
        (stop - block) (stop - block + block)
        (fun i => (low.reverse >>> (size - block)).getLsbD (i - (stop - block))) k
      = if start ≤ k ∧ k < start + block ∨ stop - block ≤ k ∧ k < stop then
          bitAt words (start + stop - 1 - k)
        else bitAt words k := by
  by_cases htop : stop - block ≤ k ∧ k < stop - block + block
  · rw [overlaid_of_mem htop.1 htop.2, getLsbD_reverse_shift _ hsmall (by omega), hlow,
      if_pos (.inr (by omega))]
    have hin : block - 1 - (k - (stop - block)) < block := by omega
    have hplace : start + (block - 1 - (k - (stop - block))) = start + stop - 1 - k := by omega
    rw [hplace]
    simp [hin]
  · rw [overlaid_of_not_mem htop]
    by_cases hbottom : start ≤ k ∧ k < start + block
    · rw [overlaid_of_mem hbottom.1 hbottom.2, getLsbD_reverse_shift _ hsmall (by omega), hhigh,
        if_pos (.inl hbottom)]
      have hin : block - 1 - (k - start) < block := by omega
      have hplace : stop - block + (block - 1 - (k - start)) = start + stop - 1 - k := by omega
      rw [hplace]
      simp [hin]
    · rw [overlaid_of_not_mem hbottom, if_neg (by omega)]

/-- What a round does to each bit. -/
theorem swapEnds_spec (hpos : 0 < block) (hsmall : block ≤ size) (hroom : start + block ≤ stop - block)
    (hstop : stop ≤ size * words.size) :
    Rewrites words (swapEnds block start stop words) fun k =>
      if start ≤ k ∧ k < start + block ∨ stop - block ≤ k ∧ k < stop then bitAt words (start + stop - 1 - k)
      else bitAt words k := by
  have hlowroom : start + block ≤ size * words.size := by omega
  have hhighroom : stop - block + block ≤ size * words.size := by omega
  obtain ⟨low, hlow, hlowbits⟩ := load_spec hpos hsmall hlowroom
  obtain ⟨high, hhigh, hhighbits⟩ := load_spec hpos hsmall hhighroom
  unfold swapEnds
  rw [hlow, hhigh]
  simp only [Option.bind_eq_bind, Option.bind_some]
  refine (store_spec hpos hsmall hlowroom _).bind fun words₁ hsize₁ hbits₁ => ?_
  obtain ⟨words₂, hstore, hsize₂, hbits₂⟩ := store_spec hpos hsmall (hsize₁ ▸ hhighroom)
    (low.reverse >>> (size - block))
  refine ⟨words₂, hstore, hsize₂, fun k => ?_⟩
  rw [hbits₂, funext hbits₁]
  exact overlaid_swapped hsmall hroom hlowbits hhighbits k

/-- A round leaves as many words. -/
theorem size_swapEnds (h : swapEnds block start stop words = some words') : words'.size = words.size := by
  obtain ⟨low, _, h⟩ := Option.bind_eq_some_iff.mp h
  obtain ⟨high, _, h⟩ := Option.bind_eq_some_iff.mp h
  obtain ⟨first, hfirst, hsecond⟩ := Option.bind_eq_some_iff.mp h
  exact (size_store hsecond).trans (size_store hfirst)

/-! ## All rounds -/

/-- Reversing a run leaves as many words. -/
theorem size_reverse (h : reverse start stop words = some words') : words'.size = words.size := by
  induction start, stop, words using reverse.induct with
  | case1 start stop words hlong block ih =>
      rw [reverse_of_long hlong] at h
      obtain ⟨swapped, hswapped, hrest⟩ := Option.bind_eq_some_iff.mp h
      exact (ih swapped hrest).trans (size_swapEnds hswapped)
  | case2 start stop words hshort =>
      rw [reverse_of_short hshort] at h
      cases h
      rfl

/-- Every bit of a run comes to the place opposite to its own. -/
theorem reverse_spec (hstop : stop ≤ size * words.size) :
    Rewrites words (reverse start stop words)
      (overlaid (bitAt words) start stop fun i => bitAt words (start + stop - 1 - i)) := by
  induction start, stop, words using reverse.induct with
  | case1 start stop words hlong block ih =>
      have hblock : block = endBlock start stop := rfl
      obtain ⟨hpos, hsmall, hroom⟩ := endBlock_bounds hlong
      rw [reverse_of_long hlong]
      rw [← hblock] at hpos hsmall hroom ⊢
      clear_value block
      refine (swapEnds_spec hpos hsmall hroom hstop).bind fun words₁ hsize₁ hbits₁ => ?_
      obtain ⟨words₂, hreverse, hsize₂, hbits₂⟩ := ih words₁ (by rw [hsize₁]; omega)
      refine ⟨words₂, hreverse, hsize₂, fun i => ?_⟩
      rw [hbits₂]
      by_cases hmiddle : start + block ≤ i ∧ i < stop - block
      · rw [overlaid_of_mem hmiddle.1 hmiddle.2, hbits₁, if_neg (by omega),
          overlaid_of_mem (by omega) (by omega)]
        congr 1
        omega
      · rw [overlaid_of_not_mem hmiddle, hbits₁]
        by_cases hin : start ≤ i ∧ i < stop
        · rw [if_pos (by omega), overlaid_of_mem hin.1 hin.2]
        · rw [if_neg (by omega), overlaid_of_not_mem hin]
  | case2 start stop words hshort =>
      rw [reverse_of_short hshort]
      refine rewrites_self fun i => ?_
      by_cases hin : start ≤ i ∧ i < stop
      · rw [overlaid_of_mem hin.1 hin.2]
        congr 1
        omega
      · rw [overlaid_of_not_mem hin]

/-- The rounds, one after the other, until there are no two bits left to swap. -/
inductive Turns : Nat → Nat → Nat → Array Word → Array Word → Prop
  | met {start stop : Nat} {words : Array Word} (hshort : ¬ 1 < stop - start) : Turns 0 start stop words words
  | round {rounds start stop : Nat} {words swapped words' : Array Word} (hlong : 1 < stop - start)
      (hswap : swapEnds (endBlock start stop) start stop words = some swapped)
      (hrest : Turns rounds (start + endBlock start stop) (stop - endBlock start stop) swapped words') :
      Turns (rounds + 1) start stop words words'

/-- What the rounds come to is the reversal. -/
theorem Turns.reverse_eq {rounds : Nat} (h : Turns rounds start stop words words') :
    reverse start stop words = some words' := by
  induction h with
  | met hshort => exact reverse_of_short hshort _
  | round hlong hswap hrest ih =>
      rw [reverse_of_long hlong, hswap]
      exact ih

/-- **A reversal comes to an end**: after one round for every 128 bits of the run, and one more if two or more
bits remain. -/
theorem reverse_eq_some_iff :
    reverse start stop words = some words' ↔ Turns ((stop - start + 126) / 128) start stop words words' := by
  refine ⟨fun h => ?_, Turns.reverse_eq⟩
  induction start, stop, words using reverse.induct with
  | case1 start stop words hlong block ih =>
      rw [reverse_of_long hlong] at h
      obtain ⟨swapped, hswapped, hrest⟩ := Option.bind_eq_some_iff.mp h
      have hrounds : (stop - start + 126) / 128
          = (stop - endBlock start stop - (start + endBlock start stop) + 126) / 128 + 1 := by
        simp only [endBlock, size]
        omega
      rw [hrounds]
      exact .round hlong hswapped (ih swapped hrest)
  | case2 start stop words hshort =>
      rw [reverse_of_short hshort] at h
      cases h
      have hnone : (stop - start + 126) / 128 = 0 := by omega
      rw [hnone]
      exact .met hshort

/-! ## Rotation -/

/-- The runs from `start` and from `middle` on trade places, by three reversals. -/
def rotate (start middle stop : Nat) (words : Array Word) : Option (Array Word) := do
  let words ← reverse start middle words
  let words ← reverse middle stop words
  reverse start stop words

/-- The bits from `middle` on come first, and the ones before them behind. -/
theorem rotate_spec {middle : Nat} (hstart : start ≤ middle) (hmiddle : middle ≤ stop)
    (hstop : stop ≤ size * words.size) :
    Rewrites words (rotate start middle stop words) (overlaid (bitAt words) start stop fun i =>
      if i < start + (stop - middle) then bitAt words (middle + (i - start))
      else bitAt words (i - (stop - middle))) := by
  refine (reverse_spec (hmiddle.trans hstop)).bind fun words₁ hsize₁ hbits₁ => ?_
  refine (reverse_spec (hsize₁ ▸ hstop)).bind fun words₂ hsize₂ hbits₂ => ?_
  have hstop₂ : stop ≤ size * words₂.size := by rwa [hsize₂, hsize₁]
  obtain ⟨words₃, hreverse, hsize₃, hbits₃⟩ : Rewrites words₂ (reverse start stop words₂) _ :=
    reverse_spec hstop₂
  refine ⟨words₃, hreverse, hsize₃, fun i => ?_⟩
  rw [hbits₃]
  by_cases hin : start ≤ i ∧ i < stop
  · rw [overlaid_of_mem hin.1 hin.2, overlaid_of_mem hin.1 hin.2, hbits₂]
    -- A bit was turned around with its own run first, and with both runs then.
    by_cases hfront : i < start + (stop - middle)
    · rw [if_pos hfront, overlaid_of_mem (by omega) (by omega), hbits₁, overlaid_of_not_mem (by omega)]
      congr 1
      omega
    · rw [if_neg hfront, overlaid_of_not_mem (by omega), hbits₁, overlaid_of_mem (by omega) (by omega)]
      congr 1
      omega
  · rw [overlaid_of_not_mem hin, overlaid_of_not_mem hin, hbits₂, overlaid_of_not_mem (by omega), hbits₁,
      overlaid_of_not_mem (by omega)]

end Growable.Word.Run
