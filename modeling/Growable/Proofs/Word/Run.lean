import Growable.Proofs.Word

/-!
# What the operations on runs of bits do

`bitAt` reads a list of words as bits.  An operation that stays within the words is always possible, and
changes the bits of one run alone: what it comes to is said by the bits that are `overlaid` from the
start of the run up to its end.

* `load_spec`, `store_spec` — a block of at most a word, at any index;
* `move_spec` — a run is moved onto another one, which it may overlap;
* `fill_spec` — a run is filled.
-/

namespace Growable.Word.Run

/-- The bit at an index; past the words, all bits are clear. -/
def bitAt (words : Array Word) (index : Nat) : Bool := (bit? words index).getD false

/-- A bit is read off the word it is in. -/
theorem bitAt_of_word {words : Array Word} {word : Word} {k : Nat} (h : words[k]? = some word)
    {place : Nat} (hplace : place < size) : bitAt words (size * k + place) = word.getLsbD place := by
  have hk : (size * k + place) / size = k := by
    rw [Nat.mul_add_div (by decide), Nat.div_eq_of_lt hplace, Nat.add_zero]
  have hp : (size * k + place) % size = place := by
    rw [Nat.mul_add_mod, Nat.mod_eq_of_lt hplace]
  simp only [bitAt, bit?, split, hk, hp, h, Option.map_some, Option.getD_some, isSet_eq,
    Nat.mod_eq_of_lt hplace]

/-- Behind the words every bit is clear. -/
theorem bitAt_of_ge {words : Array Word} {index : Nat} (h : size * words.size ≤ index) :
    bitAt words index = false := by
  have hk : words.size ≤ index / size := (Nat.le_div_iff_mul_le (by decide)).mpr (by rwa [Nat.mul_comm])
  simp [bitAt, bit?, split, Array.getElem?_eq_none hk]

/-- Every index is a place in a word. -/
theorem exists_split (index : Nat) : ∃ k p, p < size ∧ size * k + p = index :=
  ⟨_, _, (split_spec index).2, (split_spec index).1⟩

/-- Setting a word changes the bits of that word alone. -/
theorem bitAt_setIfInBounds {words : Array Word} {k : Nat} (hk : k < words.size) (word : Word)
    (k' : Nat) {p : Nat} (hp : p < size) :
    bitAt (words.setIfInBounds k word) (size * k' + p)
      = if k' = k then word.getLsbD p else bitAt words (size * k' + p) := by
  by_cases h : k' = k
  · subst h
    rw [if_pos rfl]
    exact bitAt_of_word (by rw [Array.getElem?_setIfInBounds_self_of_lt hk]) hp
  · rw [if_neg h]
    have hk' : (size * k' + p) / size = k' := by
      rw [Nat.mul_add_div (by decide), Nat.div_eq_of_lt hp, Nat.add_zero]
    simp only [bitAt, bit?, split, hk', Array.getElem?_setIfInBounds_ne (Ne.symm h)]

/-- The bits `f`, with the bits `g` over them from `start` up to `stop`. -/
def overlaid (f : Nat → Bool) (start stop : Nat) (g : Nat → Bool) (i : Nat) : Bool :=
  if start ≤ i ∧ i < stop then g i else f i

/-- Within the span, the new content is read. -/
theorem overlaid_of_mem {f g : Nat → Bool} {start stop i : Nat} (hstart : start ≤ i)
    (hstop : i < stop) : overlaid f start stop g i = g i := if_pos ⟨hstart, hstop⟩

/-- Outside it, the old content is read. -/
theorem overlaid_of_not_mem {f g : Nat → Bool} {start stop i : Nat}
    (h : ¬ (start ≤ i ∧ i < stop)) : overlaid f start stop g i = f i := if_neg h

/-- The operation is possible, and comes to as many words, whose bits are `f`. -/
def Rewrites (words : Array Word) (result : Option (Array Word)) (f : Nat → Bool) : Prop :=
  ∃ words', result = some words' ∧ words'.size = words.size ∧ ∀ i, bitAt words' i = f i

/-- Words with that content need no change. -/
theorem rewrites_self {words : Array Word} {f : Nat → Bool} (h : ∀ i, bitAt words i = f i) :
    Rewrites words (some words) f :=
  ⟨words, rfl, rfl, h⟩

/-- One operation after the other. -/
theorem Rewrites.bind {words : Array Word} {result : Option (Array Word)}
    {next : Array Word → Option (Array Word)} {f g : Nat → Bool} (h : Rewrites words result f)
    (hnext : ∀ words', words'.size = words.size → (∀ i, bitAt words' i = f i) →
      Rewrites words' (next words') g) : Rewrites words (result >>= next) g := by
  obtain ⟨words', hresult, hsize, hbits⟩ := h
  obtain ⟨words'', hlast, hsize', hbits'⟩ := hnext words' hsize hbits
  exact ⟨words'', by rw [hresult]; exact hlast, hsize'.trans hsize, hbits'⟩

/-! ## Single blocks -/

/-- The words that a block lies in are there: the one in which it begins, and the next one if it goes on. -/
theorem block_within {words : Array Word} {q r count : Nat} (hcount : 0 < count)
    (hroom : size * q + r + count ≤ size * words.size) :
    q < words.size ∧ (size < r + count → q + 1 < words.size) := by
  constructor
  · exact Nat.lt_of_mul_lt_mul_left (a := size) (by omega)
  · intro hspill
    exact Nat.lt_of_mul_lt_mul_left (a := size) (by rw [Nat.mul_add]; omega)

/-- A block that is loaded has the bits from the index on and no others, whether or not it crosses a
word. -/
theorem load_spec {words : Array Word} {index count : Nat} (hcount : 0 < count)
    (hblock : count ≤ size) (hroom : index + count ≤ size * words.size) :
    ∃ v, load words index count = some v ∧
      ∀ j, v.getLsbD j = (decide (j < count) && bitAt words (index + j)) := by
  have hsplit := split_spec index
  unfold load
  generalize split index = place at hsplit ⊢
  obtain ⟨q, r⟩ := place
  dsimp only at hsplit ⊢
  obtain ⟨rfl, hr⟩ := hsplit
  obtain ⟨hword, hspilled⟩ := block_within hcount hroom
  have hlow := Array.getElem?_eq_getElem hword
  rw [hlow]
  simp only [Option.bind_eq_bind, Option.bind_some]
  by_cases hspill : r ≠ 0 ∧ size < r + count
  · have hnext := hspilled hspill.2
    have hhigh := Array.getElem?_eq_getElem hnext
    rw [if_pos hspill, hhigh]
    refine ⟨_, rfl, fun j => ?_⟩
    rw [BitVec.getLsbD_and, getLsbD_lowMask, BitVec.getLsbD_or, BitVec.getLsbD_ushiftRight,
      BitVec.getLsbD_shiftLeft]
    by_cases hj : j < count
    · by_cases hfirst : r + j < size
      · have hat := bitAt_of_word hlow hfirst
        simp only [size] at *
        rw [Nat.add_assoc, hat]
        have hlow : j < 64 - r := by omega
        have hsize : j < 64 := by omega
        simp [hj, hlow, hsize]
      · have hat := bitAt_of_word hhigh (show r + j - size < size by omega)
        rw [show size * (q + 1) + (r + j - size) = size * q + r + j by
          rw [Nat.mul_add]; omega] at hat
        simp only [size] at *
        rw [hat, BitVec.getLsbD_of_ge _ (r + j) (by omega)]
        have hhigh : ¬ j < 64 - r := by omega
        have hplace : j - (64 - r) = r + j - 64 := by omega
        have hsize : j < 64 := by omega
        simp [hj, hhigh, hplace, hsize]
    · simp [hj]
  · rw [if_neg hspill]
    refine ⟨_, rfl, fun j => ?_⟩
    rw [BitVec.getLsbD_and, getLsbD_lowMask, BitVec.getLsbD_ushiftRight]
    by_cases hj : j < count
    · have hfirst : r + j < size := by omega
      have hat := bitAt_of_word hlow hfirst
      rw [Nat.add_assoc, hat]
      have : j < size := by omega
      simp [hj, this]
    · simp [hj]

/-- One word of a block that is overwritten. -/
theorem bitAt_splice {words : Array Word} {q r count k p : Nat} (bits : Word)
    (hk : k ≠ q + 1 ∨ r + count ≤ size) (hword : q < words.size) (hr : r < size)
    (hblock : count ≤ size) (hp : p < size) :
    (if k = q then if r ≤ p ∧ p < r + count then bits.getLsbD (p - r) else words[q].getLsbD p
      else bitAt words (size * k + p))
      = overlaid (bitAt words) (size * q + r) (size * q + r + count)
          (fun i => bits.getLsbD (i - (size * q + r))) (size * k + p) := by
  simp only [overlaid]
  by_cases hfirst : k = q
  · subst hfirst
    have hin : r ≤ p ∧ p < r + count ↔ size * k + r ≤ size * k + p ∧
        size * k + p < size * k + r + count := by omega
    have hplace : size * k + p - (size * k + r) = p - r := by omega
    have hold : bitAt words (size * k + p) = words[k].getLsbD p :=
      bitAt_of_word (Array.getElem?_eq_getElem hword) hp
    rw [if_pos rfl, hplace, hold, if_congr hin rfl rfl]
  · have hout : ¬ (size * q + r ≤ size * k + p ∧ size * k + p < size * q + r + count) := by
      simp only [size] at *
      omega
    rw [if_neg hfirst, if_neg hout]

/-- A block that is stored changes the bits from the index on and no others. -/
theorem store_spec {words : Array Word} {index count : Nat} (hcount : 0 < count)
    (hblock : count ≤ size) (hroom : index + count ≤ size * words.size) (bits : Word) :
    Rewrites words (store words index count bits)
      (overlaid (bitAt words) index (index + count) fun i => bits.getLsbD (i - index)) := by
  have hsplit := split_spec index
  unfold store
  generalize split index = place at hsplit ⊢
  obtain ⟨q, r⟩ := place
  dsimp only at hsplit ⊢
  obtain ⟨rfl, hr⟩ := hsplit
  obtain ⟨hword, hspilled⟩ := block_within hcount hroom
  have hfirst := Array.getElem?_eq_getElem hword
  rw [hfirst]
  simp only [Option.bind_eq_bind, Option.bind_some]
  by_cases hspill : r ≠ 0 ∧ size < r + count
  · have hnext := hspilled hspill.2
    have hsecond : ∀ word, (words.setIfInBounds q word)[q + 1]? = some words[q + 1] := by
      intro word
      rw [Array.getElem?_setIfInBounds_ne (by omega), Array.getElem?_eq_getElem hnext]
    rw [if_pos hspill, hsecond]
    refine ⟨_, rfl, by simp, fun i => ?_⟩
    obtain ⟨k, p, hp, rfl⟩ := exists_split i
    rw [bitAt_setIfInBounds (by simpa using hnext) _ _ hp, bitAt_setIfInBounds hword _ _ hp,
      getLsbD_splice_up _ _ _ _ hp, getLsbD_splice_down _ _ _ hblock hp]
    by_cases hsecond : k = q + 1
    · have hin : size - r + p < count ↔ size * q + r ≤ size * k + p ∧
          size * k + p < size * q + r + count := by
        rw [hsecond, Nat.mul_add]
        omega
      have hplace : size * k + p - (size * q + r) = size - r + p := by
        rw [hsecond, Nat.mul_add]
        omega
      have hold : bitAt words (size * k + p) = words[q + 1].getLsbD p :=
        bitAt_of_word (hsecond ▸ Array.getElem?_eq_getElem hnext) hp
      simp only [if_pos hsecond, overlaid, hplace, hold, hin]
    · rw [if_neg hsecond]
      exact bitAt_splice bits (.inl hsecond) hword hr hblock hp
  · rw [if_neg hspill]
    refine ⟨_, rfl, by simp, fun i => ?_⟩
    obtain ⟨k, p, hp, rfl⟩ := exists_split i
    rw [bitAt_setIfInBounds hword _ _ hp, getLsbD_splice_up _ _ _ _ hp]
    exact bitAt_splice bits (.inr (by omega)) hword hr hblock hp

/-- A block is copied. -/
theorem copy_block {words : Array Word} {source destination count : Nat} (hcount : 0 < count)
    (hblock : count ≤ size) (hsource : source + count ≤ size * words.size)
    (hdestination : destination + count ≤ size * words.size) :
    Rewrites words (do store words destination count (← load words source count))
      (overlaid (bitAt words) destination (destination + count)
        fun i => bitAt words (i - destination + source)) := by
  obtain ⟨v, hload, hv⟩ := load_spec hcount hblock hsource
  obtain ⟨words', hstore, hsize, hbits⟩ := store_spec hcount hblock hdestination v
  refine ⟨words', by rw [hload]; exact hstore, hsize, fun i => ?_⟩
  rw [hbits]
  by_cases hin : destination ≤ i ∧ i < destination + count
  · have hlt : i - destination < count := by omega
    rw [overlaid_of_mem hin.1 hin.2, overlaid_of_mem hin.1 hin.2, hv, Nat.add_comm source]
    simp [hlt]
  · rw [overlaid_of_not_mem hin, overlaid_of_not_mem hin]

/-! ## Runs -/

/-- Moving down, no bit is overwritten before it is read. -/
theorem moveDown_spec {words : Array Word} {source destination : Nat} (count : Nat)
    (hdown : destination ≤ source) (hsource : source + count ≤ size * words.size) :
    Rewrites words (moveDown source destination count words)
      (overlaid (bitAt words) destination (destination + count)
        fun i => bitAt words (i - destination + source)) := by
  induction count using Nat.strong_induction_on generalizing words source destination with
  | h count ih =>
      rw [moveDown]
      by_cases hzero : count = 0
      · rw [if_pos hzero]
        exact rewrites_self fun i => (overlaid_of_not_mem (by omega)).symm
      · rw [if_neg hzero]
        have hpos : 0 < min size count := Nat.lt_min.mpr ⟨by decide, Nat.pos_of_ne_zero hzero⟩
        have hsmall := Nat.min_le_left size count
        have hle := Nat.min_le_right size count
        dsimp only
        generalize min size count = block at *
        have hcopy : Rewrites words (do store words destination block (← load words source block))
            _ := copy_block hpos hsmall (by omega) (by omega)
        simp only [← bind_assoc]
        -- The lowest block is copied first, so the sources of the others lie above what it overwrites.
        refine hcopy.bind fun words₁ hsize₁ hbits₁ => ?_
        obtain ⟨words₂, hmove, hsize₂, hbits₂⟩ := ih (count - block) (by omega)
          (show destination + block ≤ source + block by omega) (by rw [hsize₁]; omega)
        refine ⟨words₂, hmove, hsize₂, fun i => ?_⟩
        rw [hbits₂]
        by_cases hrest : destination + block ≤ i ∧ i < destination + block + (count - block)
        · rw [overlaid_of_mem hrest.1 hrest.2, hbits₁, overlaid_of_not_mem (by omega),
            overlaid_of_mem (by omega) (by omega)]
          congr 1
          omega
        · rw [overlaid_of_not_mem hrest, hbits₁]
          by_cases hfirst : destination ≤ i ∧ i < destination + block
          · rw [overlaid_of_mem hfirst.1 hfirst.2, overlaid_of_mem hfirst.1 (by omega)]
          · rw [overlaid_of_not_mem hfirst, overlaid_of_not_mem (by omega)]

/-- Moving up, no bit is overwritten before it is read. -/
theorem moveUp_spec {words : Array Word} {source destination : Nat} (count : Nat)
    (hup : source ≤ destination) (hdestination : destination + count ≤ size * words.size) :
    Rewrites words (moveUp source destination count words)
      (overlaid (bitAt words) destination (destination + count)
        fun i => bitAt words (i - destination + source)) := by
  induction count using Nat.strong_induction_on generalizing words with
  | h count ih =>
      rw [moveUp]
      by_cases hzero : count = 0
      · rw [if_pos hzero]
        exact rewrites_self fun i => (overlaid_of_not_mem (by omega)).symm
      · rw [if_neg hzero]
        have hpos : 0 < min size count := Nat.lt_min.mpr ⟨by decide, Nat.pos_of_ne_zero hzero⟩
        have hsmall := Nat.min_le_left size count
        have hle := Nat.min_le_right size count
        dsimp only
        generalize min size count = block at *
        have hcopy : Rewrites words
            (do
              let bits ← load words (source + (count - block)) block
              store words (destination + (count - block)) block bits) _ :=
          copy_block hpos hsmall (by omega) (by omega)
        simp only [← bind_assoc]
        -- The highest block is copied first, so the sources of the others lie below what it overwrites.
        refine hcopy.bind fun words₁ hsize₁ hbits₁ => ?_
        obtain ⟨words₂, hmove, hsize₂, hbits₂⟩ := ih (count - block) (by omega)
          (show destination + (count - block) ≤ size * words₁.size by rw [hsize₁]; omega)
        refine ⟨words₂, hmove, hsize₂, fun i => ?_⟩
        rw [hbits₂]
        by_cases hrest : destination ≤ i ∧ i < destination + (count - block)
        · rw [overlaid_of_mem hrest.1 hrest.2, hbits₁, overlaid_of_not_mem (by omega),
            overlaid_of_mem hrest.1 (by omega)]
        · rw [overlaid_of_not_mem hrest, hbits₁]
          by_cases hlast : destination + (count - block) ≤ i ∧
              i < destination + (count - block) + block
          · rw [overlaid_of_mem hlast.1 hlast.2, overlaid_of_mem (by omega) (by omega)]
            congr 1
            omega
          · rw [overlaid_of_not_mem hlast, overlaid_of_not_mem (by omega)]

/-- A run is moved onto another one, whichever of them comes first and however far they overlap. -/
theorem move_spec {words : Array Word} {source destination count : Nat}
    (hsource : source + count ≤ size * words.size)
    (hdestination : destination + count ≤ size * words.size) :
    Rewrites words (move words source destination count)
      (overlaid (bitAt words) destination (destination + count)
        fun i => bitAt words (i - destination + source)) := by
  unfold move
  by_cases hsame : source = destination
  · rw [if_pos hsame, hsame]
    refine rewrites_self fun i => ?_
    by_cases hin : destination ≤ i ∧ i < destination + count
    · rw [overlaid_of_mem hin.1 hin.2, Nat.sub_add_cancel hin.1]
    · rw [overlaid_of_not_mem hin]
  · rw [if_neg hsame]
    by_cases hdown : destination < source
    · rw [if_pos hdown]
      exact moveDown_spec count (Nat.le_of_lt hdown) hsource
    · rw [if_neg hdown]
      exact moveUp_spec count (Nat.le_of_not_lt hdown) hdestination

/-- Filling a span changes its bits and no others. -/
theorem fill_spec {words : Array Word} (value : Bool) {start stop : Nat}
    (hstop : stop ≤ size * words.size) :
    Rewrites words (fill value start stop words)
      (overlaid (bitAt words) start stop fun _ => value) := by
  induction hn : stop - start using Nat.strong_induction_on generalizing words start with
  | h n ih =>
      rw [fill]
      by_cases hlt : start < stop
      · rw [if_pos hlt]
        have hplace := (split_spec start).2
        have hpos : 0 < min (size - (split start).2) (stop - start) :=
          Nat.lt_min.mpr ⟨by omega, by omega⟩
        have hsmall := Nat.min_le_left (size - (split start).2) (stop - start)
        have hle := Nat.min_le_right (size - (split start).2) (stop - start)
        dsimp only
        generalize min (size - (split start).2) (stop - start) = block at *
        refine (store_spec hpos (by omega) (by omega) _).bind fun words₁ hsize₁ hbits₁ => ?_
        obtain ⟨words₂, hfill, hsize₂, hbits₂⟩ := ih (stop - (start + block)) (by omega)
          (hsize₁ ▸ hstop) rfl
        refine ⟨words₂, hfill, hsize₂, fun i => ?_⟩
        rw [hbits₂]
        by_cases hrest : start + block ≤ i ∧ i < stop
        · rw [overlaid_of_mem hrest.1 hrest.2, overlaid_of_mem (by omega) hrest.2]
        · rw [overlaid_of_not_mem hrest, hbits₁]
          by_cases hfirst : start ≤ i ∧ i < start + block
          · rw [overlaid_of_mem hfirst.1 hfirst.2, overlaid_of_mem hfirst.1 (by omega)]
            exact getLsbD_filled value (by omega)
          · rw [overlaid_of_not_mem hfirst, overlaid_of_not_mem (by omega)]
      · rw [if_neg hlt]
        exact rewrites_self fun i => (overlaid_of_not_mem (by omega)).symm

/-- Overwriting bits leaves as many words. -/
theorem size_store {words words' : Array Word} {index count : Nat} {bits : Word}
    (h : store words index count bits = some words') : words'.size = words.size := by
  simp only [store, Option.bind_eq_bind, Option.bind_eq_some_iff, Option.pure_def] at h
  obtain ⟨first, _, h⟩ := h
  split at h
  · obtain ⟨second, _, h⟩ := Option.bind_eq_some_iff.mp h
    cases h
    rw [Array.size_setIfInBounds, Array.size_setIfInBounds]
  · cases h
    rw [Array.size_setIfInBounds]

/-- Filling a run leaves as many words. -/
theorem size_fill {value : Bool} {start stop : Nat} {words words' : Array Word}
    (h : fill value start stop words = some words') : words'.size = words.size := by
  induction start, words using fill.induct stop with
  | case1 start words hlt block ih =>
      rw [fill, if_pos hlt] at h
      obtain ⟨stored, hstored, hrest⟩ := Option.bind_eq_some_iff.mp h
      exact (ih stored hrest).trans (size_store hstored)
  | case2 start words hge =>
      rw [fill, if_neg hge] at h
      cases h
      rfl

/-- Moving a run down leaves as many words. -/
theorem size_moveDown {source destination count : Nat} {words words' : Array Word}
    (h : moveDown source destination count words = some words') : words'.size = words.size := by
  induction source, destination, count, words using moveDown.induct with
  | case1 source destination words =>
      rw [moveDown, if_pos rfl] at h
      cases h
      rfl
  | case2 source destination count words hcount block ih =>
      rw [moveDown, if_neg hcount] at h
      obtain ⟨bits, _, h⟩ := Option.bind_eq_some_iff.mp h
      obtain ⟨stored, hstored, hrest⟩ := Option.bind_eq_some_iff.mp h
      exact (ih stored hrest).trans (size_store hstored)

/-- Moving a run up leaves as many words. -/
theorem size_moveUp {source destination count : Nat} {words words' : Array Word}
    (h : moveUp source destination count words = some words') : words'.size = words.size := by
  induction count, words using moveUp.induct with
  | case1 words =>
      rw [moveUp, if_pos rfl] at h
      cases h
      rfl
  | case2 count words hcount block rest ih =>
      rw [moveUp, if_neg hcount] at h
      obtain ⟨bits, _, h⟩ := Option.bind_eq_some_iff.mp h
      obtain ⟨stored, hstored, hrest⟩ := Option.bind_eq_some_iff.mp h
      exact (ih stored hrest).trans (size_store hstored)

/-- Moving a run leaves as many words. -/
theorem size_move {words words' : Array Word} {source destination count : Nat}
    (h : move words source destination count = some words') : words'.size = words.size := by
  unfold move at h
  split at h
  · cases h
    rfl
  · split at h
    · exact size_moveDown h
    · exact size_moveUp h

end Growable.Word.Run
