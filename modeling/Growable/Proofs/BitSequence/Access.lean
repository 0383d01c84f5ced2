import Growable.Proofs.BitSequence.Order
import Growable.Proofs.Checked.BitCursor
import Growable.Proofs.Deque

/-!
# The ways to the bits of a sequence

The bits of a sequence can be read one by one from both ends, or as words, or only counted.  All of this comes
to the same bits (`BitSequence.Readable`), which have to do with the words in two places only: a cursor within
them reads the bits that it has left (`BitCursor.Within.move`), and behind the bits, the words are clear.
-/

namespace Growable

open Word.Run (bitAt bitAt_of_word)

variable {σ α : Type}

namespace BitCursor

/-- Takes the bit at one end, or none. -/
def move (c : BitCursor) : DrainMove → Option Bool × BitCursor
  | .next => c.next
  | .nextBack => c.nextBack
  | .look => (none, c)

/-- One move after another: the bit that each takes, and the cursor that it leaves. -/
def moveAll (c : BitCursor) : List DrainMove → List (Option Bool × BitCursor)
  | [] => []
  | first :: moves => c.move first :: moveAll (c.move first).2 moves

/-- The cursor after some moves.  A clone of a cursor is the same cursor. -/
def after (c : BitCursor) (moves : List DrainMove) : BitCursor :=
  moves.foldl (fun c move => (c.move move).2) c

/-- What a cursor answers to moves, as a list that is taken apart. -/
def views (answers : List (Option Bool × BitCursor)) : List (Option Bool × List Bool) :=
  answers.map fun answer => (answer.1, answer.2.rest)

/-- The bits that were taken, in the order of the moves. -/
def taken (answers : List (Option Bool × BitCursor)) : List Bool := answers.flatMap (·.1.toList)

/-- Moves may be made in two parts, the second from where the first one left the cursor. -/
theorem moveAll_append (c : BitCursor) (before after : List DrainMove) :
    c.moveAll (before ++ after) = c.moveAll before ++ (c.after before).moveAll after := by
  induction before generalizing c with
  | nil => rfl
  | cons first rest ih =>
      rw [List.cons_append, moveAll, moveAll, List.cons_append, ih]
      rfl

variable {c : BitCursor}

/-- **Step.**  A move takes the bit at its end of what is left, if any, and stays within the words. -/
theorem Within.move (h : c.Within) (move : DrainMove) :
    (c.move move).1 = (move.takes c.rest).1 ∧ (c.move move).2.rest = (move.takes c.rest).2 ∧
      (c.move move).2.Within := by
  cases move with
  | next => exact ⟨(next_eq h.front_le).1, (next_eq h.front_le).2, h.next.2⟩
  | nextBack => exact ⟨(nextBack_eq h.front_le).1, (nextBack_eq h.front_le).2, h.nextBack.2⟩
  | look => exact ⟨rfl, rfl, h⟩

/-- **Run.**  All moves take what is left apart. -/
theorem Within.views_moveAll (h : c.Within) (moves : List DrainMove) :
    views (c.moveAll moves) = DrainMove.takesAll moves c.rest := by
  -- The other moves go on from the cursor that the first one leaves, which is within the words again.
  induction moves generalizing c with
  | nil => rfl
  | cons first rest ih =>
      obtain ⟨htaken, hrest, hwithin⟩ := h.move first
      rw [DrainMove.takesAll, ← hrest, ← ih hwithin]
      exact congrArg (· :: _) (Prod.ext htaken hrest)

/-- A cursor stays within the words, and what is left between its ends is what the moves left. -/
theorem Within.after (h : c.Within) (moves : List DrainMove) :
    (c.after moves).Within ∧ (c.after moves).rest = DrainMove.left moves c.rest := by
  induction moves generalizing c with
  | nil => exact ⟨h, rfl⟩
  | cons first rest ih =>
      obtain ⟨-, hrest, hwithin⟩ := h.move first
      obtain ⟨hafter, hleft⟩ := ih hwithin
      refine ⟨hafter, hleft.trans ?_⟩
      rw [hrest]
      rfl

/-- The bits that were taken, and those that are left, are as many as there were. -/
theorem Within.length_taken (h : c.Within) (moves : List DrainMove) :
    (taken (c.moveAll moves)).length + (c.after moves).len = c.len := by
  have htaken : taken (c.moveAll moves) = (DrainMove.takesAll moves c.rest).flatMap (·.1.toList) := by
    rw [taken, ← h.views_moveAll, views, List.flatMap_map]
  rw [htaken, ← length_rest, (h.after moves).2, DrainMove.length_takesAll_left, length_rest]

end BitCursor

namespace BitSequence

/-- What the cursor `c` is worth to which a cursor over `s` comes by the moves `before`, or a clone of it. -/
structure ReadTo (s : BitSequence) (before : List DrainMove) (c : BitCursor) : Prop where
  /-- With whatever moves it goes on, it takes what was left of the bits apart. -/
  apart (after : List DrainMove) :
    TakenApart s.bits (before ++ after) (BitCursor.views (s.cursor.moveAll before ++ c.moveAll after))
  /-- The number of the bits that are left is told, also as a hint. -/
  counted : (BitCursor.taken (s.cursor.moveAll before)).length + c.len = s.len ∧
    c.sizeHint = (c.len, some c.len)
  /-- No number gets too large or too small, and no bit is looked for outside of the words. -/
  checked : c.lenChecked = some c.len ∧ c.nextChecked = some c.next ∧ c.nextBackChecked = some c.nextBack

/-- The bits of `s` are what is read of them, whichever way. -/
structure Readable (s : BitSequence) : Prop where
  /-- One by one, from both ends. -/
  cursor (before : List DrainMove) : s.ReadTo before (s.cursor.after before)
  /-- As words, which have no set bits but these. -/
  words {k p : Nat} {word : Word} (hword : s.asWords[k]? = some word) (hp : p < Word.size) :
    word.isSet p = (s.bits[Word.size * k + p]?).getD false
  /-- There are words for all of them. -/
  size_words : s.asWords.size = Word.wordsFor s.len
  ones : s.countOnes = s.bits.count true

variable {s : BitSequence} {w : World σ α} {m : Multiset (Asset α)}

/-! ## By index -/

/-- The bit at an index is the one in the list, if there is one. -/
theorem get_eq (hs : Sound m (s, w)) (index : Nat) : get index (s, w)
    = match s.bits[index]? with
      | some value => .done value (s, w)
      | none => .refused (.outOfBounds index s.len) (s, w) := by
  by_cases hindex : index < s.len
  · have hpicked : get index (s, w) = bit index (s, w) := by
      rw [get, Act.held_bind, checkIndex, if_pos hindex]
      rfl
    obtain ⟨_, _, hdone, rfl, rfl⟩ := (bit_meets (w := w) (hindex.trans_le hs.len_le)).exists_done
    rw [hpicked, hdone, getElem?_bits hindex]
  · rw [get, Act.held_bind, checkIndex, if_neg hindex,
      List.getElem?_eq_none (by rw [length_bits]; exact Nat.le_of_not_lt hindex)]
    rfl

/-- There is no bit to be picked out where there is none in the list. -/
theorem change_of_none {index : Nat} (hnone : s.bits[index]? = none) (changes : List BitChange) :
    change index changes (s, w) = .refused (.outOfBounds index s.len) (s, w) := by
  have hout : ¬ index < s.len := by
    rw [← length_bits s, Nat.not_lt]
    exact List.getElem?_eq_none_iff.mp hnone
  rw [change, Act.held_bind, checkIndex, if_neg hout]
  rfl

/-! ## All of them -/

/-- A cursor over a sequence, or a clone of it, reads the bits to the end. -/
theorem Counted.readTo (h : Counted m (s, w)) (before : List DrainMove) :
    s.ReadTo before (s.cursor.after before) where
  apart after := by
    rw [← BitCursor.moveAll_append, h.cursor_within.views_moveAll, rest_cursor h.sound.valid]
    exact DrainMove.takenApart_takesAll (before ++ after) s.bits
  counted := ⟨h.cursor_within.length_taken before, rfl⟩
  checked := by
    have hwithin := (h.cursor_within.after before).1
    exact ⟨Size.sub?_of_le hwithin.front_le, hwithin.next.1, hwithin.nextBack.1⟩

/-- A bit sequence in custody can be read by all readers. -/
theorem Counted.readable (h : Counted m (s, w)) : s.Readable where
  cursor := h.readTo
  words {k p word} hword hp := by
    rw [Word.isSet_eq, Nat.mod_eq_of_lt hp, ← bitAt_of_word hword hp, bitAt_asWords h.sound.valid,
      bitAt_words h.sound.valid]
  size_words := size_asWords h.sound.valid
  ones := countOnes_eq h.sound.valid

end BitSequence

end Growable
