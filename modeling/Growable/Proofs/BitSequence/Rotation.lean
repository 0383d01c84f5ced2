import Growable.Proofs.Checked.BitContent
import Growable.Proofs.Word.Memory

/-!
# Bits that are turned around and rotated

A run of bits is turned around in place, and the bits that an iterator yielded are brought from the end to their
position by three such reversals (`rotate`).  Whatever the words hold, no bit of the storage is touched that is
not meant.

* `reverse_done` — every bit of a run comes to the opposite place;
* `reversals_rotate` — and three reversals rotate the bits behind a position.
-/

namespace Growable.BitSequence

open Word.Run (bit? Turns bit?_eq bit?_eq_of_size overlaid_of_mem overlaid_of_not_mem)

variable {σ α : Type} {s : BitSequence} {start stop position middle : Nat} {words : Array Word}

/-- The bits of `s` from `start` up to `stop` are turned around, and the words are `words` now. -/
structure TurnedAround (s : BitSequence) (start stop : Nat) (words : Array Word) : Prop where
  size_eq : words.size = s.words.size
  /-- It took one round for every 128 bits, and one more if two or more bits were left then. -/
  rounds : Turns ((stop - start + 126) / 128) start stop s.words words
  /-- A bit is as far from the end of the run now as it was from its beginning. -/
  opposite : ∀ i < stop - start, bit? words (stop - 1 - i) = bit? s.words (start + i)
  stays : ∀ i, ¬ (start ≤ i ∧ i < stop) → bit? words i = bit? s.words i

/-- The bits from `middle` up to the end come to the position, and the words are `words` now. -/
structure Rotated (s : BitSequence) (position middle : Nat) (words : Array Word) : Prop where
  size_eq : words.size = s.words.size
  bits_eq : ({ s with words } : BitSequence).bits
    = s.bits.take position ++ s.bits.drop middle ++ (s.bits.take middle).drop position
  stays : ∀ i, s.len ≤ i → bit? words i = bit? s.words i

/-- A run within the words can be turned around, and nothing else is changed. -/
theorem reverse_done (w : World σ α) (hstop : stop ≤ s.capacity) :
    ∃ words, changeWords (Word.Run.reverse start stop) (s, w) = .done () ({ s with words }, w) ∧
      TurnedAround s start stop words := by
  have hroom : stop ≤ Word.size * s.words.size := hstop.trans_eq (Nat.mul_comm _ _)
  obtain ⟨words, hreverse, hsize, hbits⟩ : Word.Run.Rewrites s.words (Word.Run.reverse start stop s.words) _ :=
    Word.Run.reverse_spec hroom
  refine ⟨words, changeWords_of_some hreverse, hsize, Word.Run.reverse_eq_some_iff.mp hreverse, ?_, ?_⟩
  · intro i hi
    apply bit?_eq_of_size hsize (by omega) (by omega)
    rw [hbits, overlaid_of_mem (by omega) (by omega)]
    congr 1
    omega
  · intro i hout
    rw [bit?_eq, bit?_eq, hsize, hbits, overlaid_of_not_mem hout]

/-- The words that three reversals come to. -/
theorem rotated_of_rotate (hposition : position ≤ middle) (hmiddle : middle ≤ s.len)
    (hroom : s.len ≤ s.capacity) (h : Word.Run.rotate position middle s.len s.words = some words) :
    Rotated s position middle words := by
  obtain ⟨hsize, hstays, hbits⟩ := bits_of_rotate hposition hmiddle hroom h
  refine ⟨hsize, hbits, fun i hi => ?_⟩
  rw [bit?_eq, bit?_eq, hsize, hstays i hi]

/-- After what an iterator yields was appended, it is brought to its position. -/
theorem insertFeed_of_done {w : World σ α} {feed : Feed Bool} {u : BitSequence × World σ α}
    (hposition : position ≤ s.len) (h : pushFeed feed (s, w) = .done () u) :
    insertFeed position feed (s, w) = rotate position s.len u := by
  have hpushed : ∀ cleanup, Act.onRefusal (pushFeed feed) cleanup (s, w) = .done () u := by
    intro cleanup
    rw [Act.onRefusal, h]
  rw [insertFeed_eq_rotate, Act.held_bind, checkPosition_eq_ok hposition, Act.ofExcept_bind_ok]
  exact Act.bind_of_done (hpushed _)

/-- **Reversal and rotation in place.**  Whatever the words hold, the bits from `start` up to `stop` are turned
around if they are within the words: this comes to an end after one round for every 128 bits, and no other bit
is changed; if the bits can be counted, every number on the way is a size, and every shift is by less than a
word.  Three reversals bring the bits behind the first `middle` ones to a position before, in front of those
that were there.  This is what an insertion from an iterator does once all that the iterator yields is appended,
with the old length for `middle`. -/
theorem reversals_rotate (s : BitSequence) (w : World σ α) :
    (∀ start stop, start ≤ stop → stop ≤ s.capacity →
      (∃ words, changeWords (Word.Run.reverse start stop) (s, w) = .done () ({ s with words }, w) ∧
        TurnedAround s start stop words) ∧
      (s.capacity ≤ Size.limit → (changeWordsChecked (Word.Run.reverseChecked start stop)).Runs
        (changeWords (Word.Run.reverse start stop)) (s, w))) ∧
    (∀ position middle, position ≤ middle → middle ≤ s.len → s.len ≤ s.capacity →
      ∃ words, rotate position middle (s, w) = .done () ({ s with words }, w) ∧ Rotated s position middle words) ∧
    ∀ position feed u, position ≤ s.len → pushFeed feed (s, w) = .done () u →
      insertFeed position feed (s, w) = rotate position s.len u := by
  refine ⟨fun start stop hstart hstop => ?_, fun position middle hposition hmiddle hroom => ?_, ?_⟩
  · exact ⟨reverse_done w hstop, fun hlimit => runs_reverse hlimit hstart hstop⟩
  · obtain ⟨words, hdone, hrotate⟩ := rotate_done (w := w) hposition hmiddle hroom
    exact ⟨words, hdone, rotated_of_rotate hposition hmiddle hroom hrotate⟩
  · exact fun _ _ _ => insertFeed_of_done

/-- A run of 69 bits is turned around across two words, around the bit in its middle.  Two bits that an iterator
yields are appended to three, and brought to a position between these. -/
theorem reversals_rotate_across :
    let w : World Unit Unit := ⟨[], 0, #[], ()⟩
    let s : BitSequence := ⟨some 0, #[0x800000006, 0b010000], 70, .of ⟨0, .shared⟩⟩
    let t : BitSequence := ⟨some 0, #[0b101], 3, .of ⟨0, .shared⟩⟩
    let u : BitSequence × World Unit Unit :=
      (⟨some 0, #[0b01101], 5, .of ⟨0, .shared⟩⟩, ⟨[], 0, #[.yielded, .yielded, .ended], ()⟩)
    (1 ≤ 70 ∧ 70 ≤ s.capacity ∧ s.capacity ≤ Size.limit ∧ 1 ≤ t.len ∧ t.len ≤ u.1.len ∧
        u.1.len ≤ u.1.capacity ∧ pushFeed (.yield true (.yield false .finish)) (t, w) = .done () u) ∧
      (∃ words, changeWordsChecked (Word.Run.reverseChecked 1 70) (s, w) = some (.done () ({ s with words }, w)) ∧
        [1, 2, 35, 67, 68, 69].map (bit? words)
          = [some false, some true, some true, some false, some true, some true] ∧
        bit? words 0 = some false ∧ bit? words 70 = some false) ∧
      ∃ words, insertFeed 1 (.yield true (.yield false .finish)) (t, w) = .done () ({ u.1 with words }, u.2) ∧
        ({ u.1 with words } : BitSequence).bits = [true, true, false, false, true] := by
  intro w s t u
  have hstart : 1 ≤ 70 := by decide
  have hstop : 70 ≤ s.capacity := by decide
  have hlimit : s.capacity ≤ Size.limit := by decide
  have hposition : 1 ≤ t.len := by decide
  have hmiddle : t.len ≤ u.1.len := by decide
  have hroom : u.1.len ≤ u.1.capacity := by decide
  have hpushed : pushFeed (.yield true (.yield false .finish)) (t, w) = .done () u := by
    unfold t w u
    rfl
  obtain ⟨⟨words, hdone, hturned⟩, hchecked⟩ := (reversals_rotate s w).1 1 70 hstart hstop
  obtain ⟨words', hrotated, hrotation⟩ := (reversals_rotate u.1 u.2).2.1 1 t.len hposition hmiddle hroom
  have hinserted := (reversals_rotate t w).2.2 1 _ u hposition hpushed
  have hopposite : ∀ k ∈ [1, 2, 35, 67, 68, 69], bit? words k = bit? s.words (70 - k) := by
    intro k hk
    have hin : 1 ≤ k ∧ k ≤ 69 := by
      simp only [List.mem_cons, List.not_mem_nil, or_false] at hk
      omega
    have hbit := hturned.opposite (69 - k) (by omega)
    rwa [show 70 - 1 - (69 - k) = k by omega, show 1 + (69 - k) = 70 - k by omega] at hbit
  refine ⟨⟨hstart, hstop, hlimit, hposition, hmiddle, hroom, hpushed⟩,
    ⟨words, (hchecked hlimit).trans (congrArg some hdone), ?_, ?_, ?_⟩, words', hinserted.trans hrotated, ?_⟩
  · exact (List.map_congr_left hopposite).trans (by decide)
  · exact (hturned.stays 0 (by decide)).trans (by decide)
  · exact (hturned.stays 70 (by decide)).trans (by decide)
  · exact hrotation.bits_eq.trans (by decide)

end Growable.BitSequence
