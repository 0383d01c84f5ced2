import Growable.BitSequence.Cursor
import Growable.Proofs.BitSequence.Storage

/-!
# Reading, comparing and hashing valid bit sequences

A cursor hands out the bits that are left from both ends, and the cursor over a valid sequence has all of
its bits left.  Equality and hash look at the words, the order at the bits; on valid sequences all three
see the same thing, because nothing is kept in the words behind the last bit (`asWords_eq_iff`).

* `BitCursor.next_eq`, `BitCursor.nextBack_eq` — a cursor is a list that is taken from at both ends;
* `BitSequence.beq_iff`, `BitSequence.cmp_eq_lexicographic`, `BitSequence.hashData_eq` — the words of
  valid sequences say no more than their bits;
* `lexicographic_lt_iff` — what it is for a list of bits to come before another.
-/

namespace Growable

open Word.Run (bitAt)

/-! ## Cursors -/

namespace BitCursor

variable {c : BitCursor}

/-- As many bits are left as the cursor counts. -/
@[simp] theorem length_rest (c : BitCursor) : c.rest.length = c.len := by
  rw [rest, List.length_map, List.length_range']

/-- Nothing is left once the two ends meet. -/
theorem rest_eq_nil (h : c.front = c.back) : c.rest = [] := by
  rw [rest, len, h, Nat.sub_self]
  rfl

/-- The first bit left is handed out, and the others stay. -/
theorem next_eq (h : c.front ≤ c.back) : c.next.1 = c.rest.head? ∧ c.next.2.rest = c.rest.tail := by
  by_cases hdone : c.front = c.back
  · rw [next, if_pos hdone, rest_eq_nil hdone]
    exact ⟨rfl, rfl⟩
  · obtain ⟨n, hn⟩ : ∃ n, c.back - c.front = n + 1 := ⟨c.back - c.front - 1, by omega⟩
    have hshort : c.back - (c.front + 1) = n := by omega
    rw [next, if_neg hdone]
    simp only [rest, len, hn, hshort, List.range'_succ, List.map_cons, List.head?_cons,
      List.tail_cons, true_and]
    rfl

/-- The last bit left is handed out, and the others stay. -/
theorem nextBack_eq (h : c.front ≤ c.back) :
    c.nextBack.1 = c.rest.getLast? ∧ c.nextBack.2.rest = c.rest.dropLast := by
  by_cases hdone : c.front = c.back
  · rw [nextBack, if_pos hdone, rest_eq_nil hdone]
    exact ⟨rfl, rfl⟩
  · obtain ⟨n, hn⟩ : ∃ n, c.back - c.front = n + 1 := ⟨c.back - c.front - 1, by omega⟩
    have hlast : c.front + n = c.back - 1 := by omega
    have hshort : c.back - 1 - c.front = n := by omega
    rw [nextBack, if_neg hdone]
    simp only [rest, len, hn, hshort, List.range'_1_concat, List.map_append, List.map_cons,
      List.map_nil, List.getLast?_concat, List.dropLast_concat, hlast, true_and]
    rfl

end BitCursor

/-! ## Lists of bits in order -/

/-- One list of bits comes before another: it is a proper prefix of the other, or it has a cleared bit
where the other has a set one, and they agree up to there. -/
def Precedes (xs ys : List Bool) : Prop :=
  (∃ value rest, ys = xs ++ value :: rest) ∨
    ∃ front xs' ys', xs = front ++ false :: xs' ∧ ys = front ++ true :: ys'

/-- The first difference decides, and the first bits are considered first. -/
theorem Precedes.cons_iff {x y : Bool} {xs ys : List Bool} :
    Precedes (x :: xs) (y :: ys) ↔ (x = false ∧ y = true) ∨ x = y ∧ Precedes xs ys := by
  constructor
  · rintro (⟨value, rest, h⟩ | ⟨front, xs', ys', hx, hy⟩)
    · obtain ⟨rfl, rfl⟩ := List.cons.inj h
      exact .inr ⟨rfl, .inl ⟨value, rest, rfl⟩⟩
    · cases front with
      | nil => exact .inl ⟨(List.cons.inj hx).1, (List.cons.inj hy).1⟩
      | cons z front =>
          obtain ⟨rfl, rfl⟩ := List.cons.inj hx
          obtain ⟨rfl, rfl⟩ := List.cons.inj hy
          exact .inr ⟨rfl, .inr ⟨front, xs', ys', rfl, rfl⟩⟩
  · rintro (⟨rfl, rfl⟩ | ⟨rfl, ⟨value, rest, rfl⟩ | ⟨front, xs', ys', rfl, rfl⟩⟩)
    · exact .inr ⟨[], xs, ys, rfl, rfl⟩
    · exact .inl ⟨value, rest, rfl⟩
    · exact .inr ⟨x :: front, xs', ys', rfl, rfl⟩

/-- A proper prefix comes first. -/
theorem Precedes.nil_cons (y : Bool) (ys : List Bool) : Precedes [] (y :: ys) :=
  .inl ⟨y, ys, rfl⟩

/-- Nothing comes before the empty list. -/
theorem Precedes.not_nil (xs : List Bool) : ¬ Precedes xs [] := by
  rintro (⟨value, rest, h⟩ | ⟨front, xs', ys', _, h⟩) <;> simp at h

/-- The comparison of two lists of bits is decided by their first difference, or else by their
lengths. -/
theorem lexicographic_lt_iff {xs ys : List Bool} :
    lexicographic compare xs ys = .lt ↔ Precedes xs ys := by
  induction xs generalizing ys with
  | nil =>
      cases ys with
      | nil => simp [lexicographic, Precedes.not_nil]
      | cons y ys => simp [lexicographic, Precedes.nil_cons]
  | cons x xs ih =>
      cases ys with
      | nil => simp [lexicographic, Precedes.not_nil]
      | cons y ys =>
          rw [Precedes.cons_iff, ← ih, lexicographic]
          cases x <;> cases y <;> simp [compare]

/-- The order of lists is the one of the library, which is known to be total. -/
theorem lexicographic_eq_compareLex {α : Type} (compare : α → α → Ordering) (xs ys : List α) :
    lexicographic compare xs ys = List.compareLex compare xs ys := by
  induction xs generalizing ys with
  | nil => cases ys <;> rfl
  | cons x xs ih =>
      cases ys with
      | nil => rfl
      | cons y ys =>
          rw [lexicographic, List.compareLex_cons_cons, ih]
          cases compare x y <;> rfl

/-! ## Valid bit sequences -/

/-- Words are determined by their number and their bits. -/
theorem Word.Run.ext_bitAt {words words' : Array Word} (hsize : words.size = words'.size)
    (h : ∀ i, bitAt words i = bitAt words' i) : words = words' := by
  refine Array.ext hsize fun k hk hk' => BitVec.eq_of_getLsbD_eq fun p hp => ?_
  have hword := bitAt_of_word (Array.getElem?_eq_getElem hk) hp
  have hword' := bitAt_of_word (Array.getElem?_eq_getElem hk') hp
  rw [← hword, ← hword', h]

namespace BitSequence

variable {s t : BitSequence}

/-- The bits of the words are those of the sequence, and cleared ones behind them. -/
theorem bitAt_words (hs : s.Valid) (i : Nat) : bitAt s.words i = (s.bits[i]?).getD false := by
  by_cases hi : i < s.len
  · rw [getElem?_bits hi, Option.getD_some]
  · have hi := Nat.le_of_not_lt hi
    rw [hs.clear i hi, List.getElem?_eq_none (by rwa [length_bits]), Option.getD_none]

/-- The words in use, and the length, say no more than the bits. -/
theorem asWords_eq_iff (hs : s.Valid) (ht : t.Valid) :
    (s.len = t.len ∧ s.asWords = t.asWords) ↔ s.bits = t.bits := by
  constructor
  · rintro ⟨hlen, hwords⟩
    refine bits_eq_of_same hlen fun i _ => ?_
    rw [← bitAt_asWords hs, ← bitAt_asWords ht, hwords]
  · intro hbits
    have hlen : s.len = t.len := by rw [← length_bits s, hbits, length_bits]
    refine ⟨hlen, Word.Run.ext_bitAt ?_ fun i => ?_⟩
    · rw [size_asWords hs, size_asWords ht, hlen]
    · rw [bitAt_asWords hs, bitAt_asWords ht, bitAt_words hs, bitAt_words ht, hbits]

/-- Comparing word by word, the last one up to the length, is comparing the bits. -/
theorem beq_iff (hs : s.Valid) (ht : t.Valid) : s.beq t = true ↔ s.bits = t.bits := by
  rw [← asWords_eq_iff hs ht, beq, Bool.and_eq_true, beq_iff_eq, beq_iff_eq]

/-- What is fed to a hash is determined by the bits. -/
theorem hashData_eq (hs : s.Valid) (ht : t.Valid) (h : s.bits = t.bits) : s.hashData = t.hashData := by
  obtain ⟨hlen, hwords⟩ := (asWords_eq_iff hs ht).mpr h
  rw [hashData, hashData, hlen, hwords]

/-- The cursor over a sequence has all its bits left. -/
theorem rest_cursor (hs : s.Valid) : s.cursor.rest = s.bits := by
  rw [BitCursor.rest, BitCursor.len, cursor, Nat.sub_zero, ← List.range_eq_range', bits]
  exact List.map_congr_left fun i _ => bitAt_asWords hs i

/-- Comparing from the first word that differs is comparing the bits in order. -/
theorem cmp_eq_lexicographic (hs : s.Valid) (ht : t.Valid) :
    s.cmp t = lexicographic compare s.bits t.bits := by
  rw [cmp, rest_cursor hs, rest_cursor ht]

end BitSequence

end Growable
