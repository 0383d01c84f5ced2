import Mathlib.Tactic.Ring
import Growable.Proofs.Program.Custody

/-!
# The words of bit sequences in programs

In every program, whatever faulted in it and whatever memory it lacked, the words of a bit sequence hold
its bits and nothing else: all bits past the length are clear.  So the words in use are as many as the
bits need, and counting the set bits of the words is counting the bits of the sequence that are set.
-/

namespace Growable

open Word.Run (bitAt)

variable {σ α : Type}

/-! ## Counting -/

/-- The first bits are those of the first word. -/
theorem bitAt_cons_zero (word : Word) (rest : List Word) {p : Nat} (hp : p < Word.size) :
    bitAt (word :: rest).toArray p = word.isSet p := by
  have hat : bitAt (word :: rest).toArray (Word.size * 0 + p) = word.getLsbD p :=
    Word.Run.bitAt_of_word rfl hp
  rw [Nat.mul_zero, Nat.zero_add] at hat
  rw [hat, Word.isSet_eq, Nat.mod_eq_of_lt hp]

/-- The bits after those of the first word are those of the other words. -/
theorem bitAt_cons_succ (word : Word) (rest : List Word) (i : Nat) :
    bitAt (word :: rest).toArray (Word.size + i) = bitAt rest.toArray i := by
  have hword : (Word.size + i) / Word.size = i / Word.size + 1 := Nat.add_div_left i (by decide)
  have hplace : (Word.size + i) % Word.size = i % Word.size := Nat.add_mod_left _ _
  simp only [bitAt, Word.Run.bit?, Word.split, hword, hplace, List.getElem?_toArray,
    List.getElem?_cons_succ]

/-- The set bits of some words, counted word by word, are the set bits among all their bits. -/
theorem sum_count_eq (words : List Word) :
    words.foldr (fun word n => word.count + n) 0
      = (List.range (Word.size * words.length)).countP fun i => bitAt words.toArray i := by
  induction words with
  | nil => rfl
  | cons word rest ih =>
      have hfirst : (List.range Word.size).countP (fun i => bitAt (word :: rest).toArray i)
          = word.count := by
        apply List.countP_congr
        intro p hp
        rw [bitAt_cons_zero word rest (List.mem_range.mp hp)]
      have hrest : ((List.range (Word.size * rest.length)).map (Word.size + ·)).countP
          (fun i => bitAt (word :: rest).toArray i) = rest.foldr (fun word n => word.count + n) 0 := by
        rw [List.countP_map, ih]
        apply List.countP_congr
        intro i _
        rw [Function.comp_apply, bitAt_cons_succ]
      have hlength : Word.size * (word :: rest).length = Word.size + Word.size * rest.length := by
        rw [List.length_cons]
        ring
      rw [List.foldr_cons, hlength, List.range_add, List.countP_append, hfirst, hrest]

/-- Cleared padding adds nothing, so that the count over whole words is the count over the bits. -/
theorem BitSequence.countOnes_eq {s : BitSequence} (hs : s.Valid) :
    s.countOnes = s.bits.count true := by
  have hwords := Word.le_wordsFor s.len
  obtain ⟨n, hn⟩ := Nat.exists_eq_add_of_le hwords
  have hlength : Word.size * s.asWords.toList.length = s.len + n := by
    rw [Array.length_toList, size_asWords hs, Nat.mul_comm, hn]
  have hsame : ∀ i, bitAt s.asWords.toList.toArray i = bitAt s.words i := bitAt_asWords hs
  have hclear : ((List.range n).map (s.len + ·)).countP (fun i => bitAt s.words i) = 0 := by
    apply List.countP_eq_zero.mpr
    intro i hi
    obtain ⟨k, _, rfl⟩ := List.mem_map.mp hi
    simp [hs.clear (s.len + k) (Nat.le_add_right _ _)]
  unfold countOnes
  rw [sum_count_eq, hlength]
  simp only [hsame]
  rw [List.range_add, List.countP_append, hclear, Nat.add_zero, bits, List.count, List.countP_map]
  apply List.countP_congr
  intro i _
  simp [bitAt]

/-! ## In programs -/

/-- **Representation.**  After every program, a bit sequence has 64 bits of capacity for each word, holds
no more bits than that, and has no bit set past its length in any word; it uses just enough words for its
bits, and its set bits are as many as are counted. -/
theorem Workspace.bitSequence_represents (E : Element σ α) (registers : Nat)
    (accounts : List Account) (code : σ) (commands : List (Command σ α)) {a : Nat} {s : BitSequence}
    (h : (runAll E (initial registers accounts code) commands).2.bitSequence? a = some s) :
    s.capacity = 64 * s.words.size ∧ s.len ≤ s.capacity ∧
      (∀ (k : Nat) (hk : k < s.words.size) (p : Nat), p < 64 → s.len ≤ 64 * k + p →
        s.words[k].getLsbD p = false) ∧
      s.asWords.size = (s.len + 63) / 64 ∧ s.countOnes = s.bits.count true := by
  have hsound : Sound E 0 (runAll E (initial registers accounts code) commands).2 :=
    runAll_sound commands (sound_initial registers accounts code)
  have hs : s.Valid := hsound.valid a _ (container?_of_bitSequence? h)
  refine ⟨Nat.mul_comm _ _, hs.len_le, fun k hk p hp hpast => ?_, BitSequence.size_asWords hs,
    BitSequence.countOnes_eq hs⟩
  rw [← Word.Run.bitAt_of_word (Array.getElem?_eq_getElem hk) hp]
  exact hs.clear _ hpast

/-- A bit is pushed into an empty bit sequence. -/
theorem Workspace.bitSequence_represents_pushed :
    ∃ s : BitSequence, (runAll (Element.plain ⟨1, 1⟩ ()) (initial 1 [.unlimited] ())
        [.createBits 0 .empty (.of ⟨0, .shared⟩), .editBits 0 (.push true)]).2.bitSequence? 0
          = some s ∧
      s.capacity = 64 * s.words.size ∧ s.len ≤ s.capacity ∧
      (∀ (k : Nat) (hk : k < s.words.size) (p : Nat), p < 64 → s.len ≤ 64 * k + p →
        s.words[k].getLsbD p = false) ∧
      s.asWords.size = (s.len + 63) / 64 ∧ s.countOnes = s.bits.count true := by
  have h : (runAll (Element.plain ⟨1, 1⟩ ()) (initial 1 [.unlimited] ())
      [.createBits 0 .empty (.of ⟨0, .shared⟩), .editBits 0 (.push true)]).2.bitSequence? 0
        = some ⟨some 0, #[1], 1, .of ⟨0, .shared⟩⟩ := rfl
  exact ⟨_, h, bitSequence_represents _ _ _ _ _ h⟩

end Growable
