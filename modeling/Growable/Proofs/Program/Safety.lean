import Growable.Proofs.BitSequence.Demand
import Growable.Proofs.Checked.BitCursor
import Growable.Proofs.Checked.Program
import Growable.Proofs.Program.Faults

/-!
# The storage never breaks

Whatever a program does, with whichever handles, indexes, counts and capacities: nothing that an operation
computes leaves the range of sizes, none of its checks fails, and each fault that it comes to was raised by code
that is not part of the storage, or was provoked by taking for granted what is not there.  Every capacity that
a handle admits belongs to a region that can exist (`bytes?_of_accepted`).
-/

namespace Growable

variable {σ α : Type} {E : Element σ α}

/-! ## Regions that can exist -/

/-- A capacity is accepted within a maximum: as what was asked for, or as what a sequence of capacity `old`
grows to that requires `required` slots. -/
inductive Capacity.Accepted (maxSize capacity : Nat) : Prop
  | checked (h : check capacity maxSize = .ok ())
  | grown {old required : Nat} (h : grow old required maxSize = .ok capacity)

/-- A capacity that is accepted is within the limit. -/
theorem Capacity.Accepted.le {maxSize capacity : Nat} (h : Accepted maxSize capacity) : capacity ≤ maxSize := by
  cases h with
  | checked h => exact check_eq_ok_iff.mp h
  | grown h => exact (grow_bounds h).2

/-- Within the limit of a handle the product of bytes does not overflow. -/
theorem Shape.Lawful.bytes?_of_le {shape : Shape} (hshape : shape.Lawful) {handle : Handle} {n : Nat}
    (hn : n ≤ handle.maxSize shape.bytes) : Region.bytes? shape n = some (shape.bytes * n) :=
  hshape.bytes?_eq ((Handle.mul_le_maxBytes hn).trans handle.maxBytes_le)

/-- An accepted number of elements has a region. -/
theorem bytes?_of_accepted (hshape : E.toShape.Lawful) {handle : Handle} {capacity : Nat}
    (h : Capacity.Accepted (handle.maxSize E.bytes) capacity) :
    Region.bytes? E.toShape capacity = some (E.bytes * capacity) :=
  hshape.bytes?_of_le h.le

/-- An accepted number of bits has a region of words. -/
theorem BitSequence.bytes?_of_accepted {handle : Handle} {capacity : Nat}
    (h : Capacity.Accepted (empty handle).maxSize capacity) :
    Region.bytes? Word.shape (Word.wordsFor capacity) = some (Word.shape.bytes * Word.wordsFor capacity) := by
  have hwords : Word.wordsFor capacity ≤ (empty handle).maxWords := Word.wordsFor_le.mpr h.le
  have hadmitted : Word.wordsFor capacity ≤ handle.maxSize Word.shape.bytes :=
    hwords.trans (Nat.min_le_left _ _)
  exact Shape.Lawful.bytes?_of_le Word.lawful_shape hadmitted

/-! ## Bit sequences that are asked -/

/-- What a bit sequence is asked can be computed, and so can all moves of a cursor. -/
structure BitSequence.Computable (s : BitSequence) : Prop where
  capacity : s.capacityChecked = some s.capacity
  maxSize : s.maxSizeChecked = some s.maxSize
  asWords : s.asWordsChecked = some s.asWords
  countOnes : s.countOnesChecked = some s.countOnes
  walk : ∀ moves, s.cursor.walkChecked moves = some (s.cursor.walk moves)

/-- A counted bit sequence has no computation that overflows. -/
theorem BitSequence.Counted.computable {s : BitSequence} {w : World σ α} {m : Multiset (Asset α)}
    (h : Counted m (s, w)) : s.Computable where
  capacity := h.capacityChecked_eq
  maxSize := s.maxSizeChecked_eq
  asWords := asWordsChecked_eq h.sound.valid
  countOnes := h.countOnesChecked_eq
  walk := h.cursor_within.walk

/-! ## Programs -/

namespace Workspace

/-- Whatever a program does to sequences of elements of a lawful shape and to bit sequences, nothing breaks:
it comes to its responses with every sum, difference, product, index and invariant checked on the way, clean-up
included; the same goes for any command thereafter, and a fault that this one comes to has a reason outside of
the storage; what the bit sequences are asked can be computed; and each capacity that is accepted within the
maximum size of a handle has a region. -/
theorem nothing_breaks (E : Element σ α) (hshape : E.toShape.Lawful) (registers : Nat)
    (accounts : List Account) (code : σ) (commands : List (Command σ α)) :
    let start : Workspace σ α := initial registers accounts code
    let ws := (start.runAll E commands).2
    start.runAllChecked E commands = some (start.runAll E commands) ∧
      (∀ command, ws.runChecked E command = some (ws.run E command) ∧
        ∀ f, (ws.run E command).1 = .faulted f → command.CanFault E ws f) ∧
      (∀ a s, ws.bitSequence? a = some s → s.Computable) ∧
      (∀ (handle : Handle) (capacity : Nat), Capacity.Accepted (handle.maxSize E.bytes) capacity →
        Region.bytes? E.toShape capacity = some (E.bytes * capacity)) ∧
      ∀ (handle : Handle) (capacity : Nat), Capacity.Accepted (BitSequence.empty handle).maxSize capacity →
        Region.bytes? Word.shape (Word.wordsFor capacity)
          = some (Word.shape.bytes * Word.wordsFor capacity) := by
  intro start ws
  have hstart : Counted E start := counted_initial registers accounts code
  have hcounted : Counted E ws := hstart.runAll commands
  refine ⟨hstart.runAllChecked_eq hshape.fits commands, ?_, ?_, ?_, ?_⟩
  · intro command
    exact ⟨hcounted.runChecked_eq hshape.fits command, perform_faults command hshape.fits hcounted.sound⟩
  · intro a s hs
    exact (hcounted.bits (container?_of_bitSequence? hs)).computable
  · exact fun _ _ => bytes?_of_accepted hshape
  · exact fun _ _ => BitSequence.bytes?_of_accepted

/-- Two elements, and room for some bits: absurd numbers of elements and of bits break nothing, and an element
that does not exist is a fault where it is taken for granted. -/
theorem nothing_breaks_plain :
    let E : Element Unit Nat := .plain ⟨8, 8⟩ 0
    let start : Workspace Unit Nat := initial 2 [.unlimited] ()
    let commands : List (Command Unit Nat) :=
      [.create 0 (.ofList [1, 2]) (.of ⟨0, .shared⟩), .createBits 1 (.withCapacity 65) (.of ⟨0, .shared⟩),
        .edit 0 (.insertCopies 1 Size.limit 5), .editBits 1 (.resize Size.limit false)]
    let ws := (start.runAll E commands).2
    start.runAllChecked E commands = some (start.runAll E commands) ∧
      (ws.run E (.edit 0 (.demand 7))).1 = .faulted (.indexOutOfBounds 7 2) ∧
      (.edit 0 (.demand 7) : Command Unit Nat).CanFault E ws (.indexOutOfBounds 7 2) := by
  have hfault : (((initial 2 [.unlimited] ()).runAll (.plain ⟨8, 8⟩ 0)
      [.create 0 (.ofList [1, 2]) (.of ⟨0, .shared⟩), .createBits 1 (.withCapacity 65) (.of ⟨0, .shared⟩),
        .edit 0 (.insertCopies 1 Size.limit 5), .editBits 1 (.resize Size.limit false)]).2.run
          (.plain ⟨8, 8⟩ 0) (.edit 0 (.demand 7))).1 = (.faulted (.indexOutOfBounds 7 2) : Response Nat) := rfl
  intro E start commands ws
  have hshape : E.toShape.Lawful := ⟨by decide, by decide⟩
  obtain ⟨hruns, hnext, -⟩ := nothing_breaks E hshape 2 [.unlimited] () commands
  exact ⟨hruns, hfault, (hnext (.edit 0 (.demand 7))).2 _ hfault⟩

end Workspace

end Growable
