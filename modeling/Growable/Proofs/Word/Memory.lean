import Growable.Proofs.Checked.Word

/-!
# Words as a memory of bits

A list of words is a memory of single bits, which `bit?` reads one at a time, and which has no bit at an
index past the words.

* `block_accessed` — a block of at most a word is read or overwritten at any index, and nothing else is touched;
* `move_copies` — a run of bits is moved onto another one as if it were read as a whole before the first bit
  is written, however the two overlap.
-/

namespace Growable.Word.Run

variable {words words' : Array Word}

/-- There is a bit at each index within the words, and at no other. -/
theorem bit?_eq (words : Array Word) (index : Nat) :
    bit? words index = if index < size * words.size then some (bitAt words index) else none := by
  unfold bitAt bit? split
  dsimp only
  by_cases hin : index < size * words.size
  · have hword : index / size < words.size := Nat.div_lt_of_lt_mul hin
    rw [if_pos hin, Array.getElem?_eq_getElem hword, Option.map_some, Option.getD_some]
  · have hpast : words.size ≤ index / size :=
      (Nat.le_div_iff_mul_le (by decide)).mpr (Nat.mul_comm _ _ ▸ Nat.le_of_not_lt hin)
    rw [if_neg hin, Array.getElem?_eq_none hpast, Option.map_none]

/-- As many words have bits at the same indexes. -/
theorem bit?_eq_of_size (hsize : words'.size = words.size) {i j : Nat} (hi : i < size * words.size)
    (hj : j < size * words.size) (h : bitAt words' i = bitAt words j) : bit? words' i = bit? words j := by
  rw [bit?_eq, bit?_eq, hsize, if_pos hi, if_pos hj, h]

/-! ## Blocks -/

section Blocks

variable {index count : Nat} (hcount : 0 < count) (hroom : index + count ≤ size * words.size)

include hcount hroom

/-- Words that follow are not read. -/
theorem load_append (more : Array Word) : load (words ++ more) index count = load words index count := by
  have hsplit := split_spec index
  unfold load
  generalize split index = place at hsplit ⊢
  obtain ⟨q, r⟩ := place
  dsimp only at hsplit ⊢
  obtain ⟨rfl, hr⟩ := hsplit
  obtain ⟨hword, hspilled⟩ := block_within hcount hroom
  rw [Array.getElem?_append_left hword]
  by_cases hspill : r ≠ 0 ∧ size < r + count
  · simp only [if_pos hspill, Array.getElem?_append_left (hspilled hspill.2)]
  · simp only [if_neg hspill]

/-- Words that follow are neither read nor overwritten. -/
theorem store_append (more : Array Word) (bits : Word) :
    store (words ++ more) index count bits = (store words index count bits).map (· ++ more) := by
  have hsplit := split_spec index
  unfold store
  generalize split index = place at hsplit ⊢
  obtain ⟨q, r⟩ := place
  dsimp only at hsplit ⊢
  obtain ⟨rfl, hr⟩ := hsplit
  obtain ⟨hword, hspilled⟩ := block_within hcount hroom
  rw [Array.getElem?_append_left hword, Array.getElem?_eq_getElem hword]
  simp only [Option.bind_eq_bind, Option.bind_some, Array.setIfInBounds_append_left hword]
  by_cases hspill : r ≠ 0 ∧ size < r + count
  · have hnext : ∀ word, q + 1 < (words.setIfInBounds q word).size := fun word => by
      rw [Array.size_setIfInBounds]
      exact hspilled hspill.2
    simp only [if_pos hspill, Array.getElem?_append_left (hnext _), Array.setIfInBounds_append_left (hnext _),
      Array.getElem?_eq_getElem (hnext _), Option.bind_some]
    rfl
  · simp only [if_neg hspill]
    rfl

end Blocks

/-- **A block is read and overwritten at any index.**  If it lies within the words, the bits that are read are
those of the words, with clear bits above them, and the bits that are overwritten become those of a word,
whatever that word has above them; all other bits stay.  Words that may follow are not touched.  If the index
is a size, every number on the way is one, and every shift, that of the mask included, is by less than a
word. -/
theorem block_accessed {index count : Nat} (hcount : 0 < count) (hblock : count ≤ 64)
    (hroom : index + count ≤ 64 * words.size) (value : Word) :
    (∃ bits, load words index count = some bits ∧
      (∀ j < count, bit? words (index + j) = some (bits.getLsbD j)) ∧
      ∀ j, count ≤ j → bits.getLsbD j = false) ∧
    (∃ words', store words index count value = some words' ∧ words'.size = words.size ∧
      (∀ j < count, bit? words' (index + j) = some (value.getLsbD j)) ∧
      ∀ i, ¬ (index ≤ i ∧ i < index + count) → bit? words' i = bit? words i) ∧
    (∀ more, load (words ++ more) index count = load words index count ∧
      store (words ++ more) index count value = (store words index count value).map (· ++ more)) ∧
    (index ≤ Size.limit → loadChecked words index count = load words index count ∧
      storeChecked words index count value = store words index count value) := by
  have hindex : index < size * words.size := Nat.lt_of_lt_of_le (Nat.lt_add_of_pos_right hcount) hroom
  have hwithin : ∀ j < count, index + j < size * words.size :=
    fun j hj => Nat.lt_of_lt_of_le (Nat.add_lt_add_left hj index) hroom
  refine ⟨?_, ?_, ?_, ?_⟩
  · obtain ⟨bits, hload, hbits⟩ := load_spec hcount hblock hroom
    refine ⟨bits, hload, fun j hj => ?_, fun j hj => ?_⟩
    · rw [bit?_eq, if_pos (hwithin j hj), hbits, decide_eq_true hj, Bool.true_and]
    · rw [hbits, decide_eq_false hj.not_gt, Bool.false_and]
  · obtain ⟨words', hstore, hsize, hbits⟩ := store_spec hcount hblock hroom value
    refine ⟨words', hstore, hsize, fun j hj => ?_, fun i hout => ?_⟩
    · rw [bit?_eq, hsize, if_pos (hwithin j hj), hbits,
        overlaid_of_mem (Nat.le_add_right _ _) (Nat.add_lt_add_left hj _), Nat.add_sub_cancel_left]
    · rw [bit?_eq, bit?_eq, hsize, hbits, overlaid_of_not_mem hout]
  · exact fun more => ⟨load_append hcount hroom more, store_append hcount hroom more value⟩
  · exact fun hlimit => ⟨loadChecked_eq hlimit hcount hblock hindex,
      storeChecked_eq hlimit hcount hblock hindex value⟩

/-- Seven bits across the boundary of two words are read, and overwritten by those of a word that has more of
them. -/
theorem block_accessed_across :
    (0 < 7 ∧ 7 ≤ 64 ∧ 61 + 7 ≤ 64 * (#[0xA000000000000000, 0b1011] : Array Word).size ∧ 61 ≤ Size.limit) ∧
      (∃ bits, load #[0xA000000000000000, 0b1011] 61 7 = some bits ∧
        loadChecked #[0xA000000000000000, 0b1011] 61 7 = some bits ∧
        (List.range 7).map bits.getLsbD = [true, false, true, true, true, false, true] ∧
        bits.getLsbD 7 = false) ∧
      ∃ words', store #[0xA000000000000000, 0b1011] 61 7 0b111110010 = some words' ∧
        (List.range 7).map (fun j => bit? words' (61 + j))
          = [some false, some true, some false, some false, some true, some true, some true] ∧
        bit? words' 60 = some false ∧ bit? words' 68 = some false := by
  have hcount : 0 < 7 := by decide
  have hblock : 7 ≤ 64 := by decide
  have hroom : 61 + 7 ≤ 64 * (#[0xA000000000000000, 0b1011] : Array Word).size := by decide
  have hlimit : 61 ≤ Size.limit := by decide
  obtain ⟨⟨bits, hload, hread, hclear⟩, ⟨words', hstore, -, hwritten, hstays⟩, -, hchecked⟩ :=
    block_accessed hcount hblock hroom 0b111110010
  have hbit : ∀ j ∈ List.range 7, bits.getLsbD j = bitAt #[0xA000000000000000, 0b1011] (61 + j) := by
    intro j hj
    rw [bitAt, hread j (List.mem_range.mp hj), Option.getD_some]
  have hbit' : ∀ j ∈ List.range 7, bit? words' (61 + j) = some ((0b111110010 : Word).getLsbD j) :=
    fun j hj => hwritten j (List.mem_range.mp hj)
  refine ⟨⟨hcount, hblock, hroom, hlimit⟩,
    ⟨bits, hload, (hchecked hlimit).1.trans hload, ?_, hclear 7 (by decide)⟩, words', hstore, ?_, ?_, ?_⟩
  · exact (List.map_congr_left hbit).trans (by decide)
  · exact (List.map_congr_left hbit').trans (by decide)
  · exact (hstays 60 (by decide)).trans (by decide)
  · exact (hstays 68 (by decide)).trans (by decide)

/-! ## Runs -/

/-- **A run of bits is moved as a whole.**  If both runs lie within the words, the bits of the second one
become what those of the first one were, whichever of the two comes first, however far they overlap, and at
whatever places in their words they begin; all other bits stay.  If the bits of the words can be counted,
every index on the way is a size, and every shift is by less than a word. -/
theorem move_copies {source destination count : Nat} (hsource : source + count ≤ 64 * words.size)
    (hdestination : destination + count ≤ 64 * words.size) :
    ∃ words', move words source destination count = some words' ∧ words'.size = words.size ∧
      (∀ i < count, bit? words' (destination + i) = bit? words (source + i)) ∧
      (∀ i, ¬ (destination ≤ i ∧ i < destination + count) → bit? words' i = bit? words i) ∧
      (64 * words.size ≤ Size.limit → moveChecked words source destination count = some words') := by
  obtain ⟨words', hmove, hsize, hbits⟩ := move_spec hsource hdestination
  refine ⟨words', hmove, hsize, ?_, ?_, ?_⟩
  · intro i hi
    apply bit?_eq_of_size hsize (show destination + i < size * words.size by simp only [size]; omega)
      (show source + i < size * words.size by simp only [size]; omega)
    rw [hbits, overlaid_of_mem (Nat.le_add_right _ _) (Nat.add_lt_add_left hi _), Nat.add_sub_cancel_left,
      Nat.add_comm i]
  · intro i hout
    rw [bit?_eq, bit?_eq, hsize, hbits, overlaid_of_not_mem hout]
  · intro hlimit
    rw [moveChecked_eq hlimit hsource hdestination, hmove]

/-- A run of more than a word is moved up by two, so that it overlaps itself. -/
theorem move_copies_overlapping :
    (0 + 70 ≤ 64 * (#[0b1101, 0, 0] : Array Word).size ∧ 2 + 70 ≤ 64 * (#[0b1101, 0, 0] : Array Word).size) ∧
      ∃ words', move #[0b1101, 0, 0] 0 2 70 = some words' ∧
        [0, 1, 2, 3, 4, 5, 6].map (bit? words')
          = [some true, some false, some true, some false, some true, some true, some false] := by
  have hsource : 0 + 70 ≤ 64 * (#[0b1101, 0, 0] : Array Word).size := by decide
  have hdestination : 2 + 70 ≤ 64 * (#[0b1101, 0, 0] : Array Word).size := by decide
  obtain ⟨words', hmove, _, hcopied, hstays, _⟩ := move_copies hsource hdestination
  refine ⟨⟨hsource, hdestination⟩, words', hmove, ?_⟩
  simp only [List.map_cons, List.map_nil]
  rw [hstays 0 (by decide), hstays 1 (by decide), hcopied 0 (by decide), hcopied 1 (by decide),
    hcopied 2 (by decide), hcopied 3 (by decide), hcopied 4 (by decide)]
  decide

end Growable.Word.Run
