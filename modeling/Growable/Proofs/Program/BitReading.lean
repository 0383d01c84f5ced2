import Growable.Proofs.BitSequence.Access
import Growable.Proofs.BitSequence.InPlace
import Growable.Proofs.Program.Capacity
import Growable.Proofs.Program.Responses

/-!
# Reading bits in programs

After every program, a bit sequence holds a list of bits, and every way to its bits comes to this list: the
commands that ask for one of them or pick one out (`Workspace.Accesses`), the cursors over it, its words, and the
number of its set bits: `Workspace.bit_reads_agree`.
-/

namespace Growable

open Act
open Word.Run (bitAt)

variable {σ α : Type} {E : Element σ α}

namespace Workspace

variable {ws : Workspace σ α} {a : Nat}

/-- What commands come to that want the bit at an index of the sequence `s` in register `a`. -/
structure Accesses (E : Element σ α) (ws : Workspace σ α) (a : Nat) (s : BitSequence) : Prop where
  /-- A bit that there is, is answered. -/
  read {i : Nat} {value : Bool} (hvalue : s.bits[i]? = some value) :
    ws.run E (.editBits a (.get i)) = (.answer (.bit value), ws)
  /-- A bit that was picked out is changed again and again.  Each change answers the bit that it finds, or the
  one that it leaves, as the case may be; all other bits of the words are what they were, and so is the rest. -/
  changed {i : Nat} {value : Bool} (hvalue : s.bits[i]? = some value) (changes : List BitChange) :
    let last := (BitChange.onBits changes value).2
    ∃ t : BitSequence, ws.run E (.editBits a (.change i changes))
        = (.answer (.bits (BitChange.onBits changes value).1), ws.put a (some (.bits t))) ∧
      t.bits = s.bits.set i last ∧ (∀ j, bitAt t.words j = if j = i then last else bitAt s.words j) ∧
      t.region = s.region ∧ t.handle = s.handle
  /-- Changes that make the bit what it was, in the end, change nothing. -/
  unchanged {i : Nat} {value : Bool} (hvalue : s.bits[i]? = some value) {changes : List BitChange}
    (hlast : (BitChange.onBits changes value).2 = value) :
    ws.run E (.editBits a (.change i changes)) = (.answer (.bits (BitChange.onBits changes value).1), ws)
  /-- A bit that there is not, is neither answered nor picked out. -/
  refused {i : Nat} (hnone : s.bits[i]? = none) :
    ws.run E (.editBits a (.get i)) = (.refused (.outOfBounds i s.len), ws) ∧
      ∀ changes, ws.run E (.editBits a (.change i changes)) = (.refused (.outOfBounds i s.len), ws)

/-- Each way to read is one about the list of bits, as the sequence represents it. -/
theorem accesses_of_sound {s : BitSequence} {m : Multiset (Asset α)} (hs : ws.bitSequence? a = some s)
    (hsound : BitSequence.Sound m (s, ws.world)) : Accesses E ws a s where
  read {i value} hvalue := by
    have hget := BitSequence.get_eq hsound i
    rw [hvalue] at hget
    exact run_editBits_answered hs (bind_of_done hget)
  changed {i value} hvalue changes := by
    obtain ⟨⟨t, w⟩, hdone, hplace, hbits, hwords⟩ := BitSequence.change_done hsound hvalue changes
    obtain rfl : w = ws.world := hplace.world_eq
    exact ⟨t, run_editBits_done hs (bind_of_done hdone), hbits, hwords, hplace.region_eq, hplace.handle_eq⟩
  unchanged hvalue _ hlast :=
    run_editBits_answered hs (bind_of_done (BitSequence.change_still hsound hvalue hlast))
  refused {i} hnone := by
    have hget := BitSequence.get_eq hsound i
    rw [hnone] at hget
    exact ⟨run_editBits_refused hs (bind_of_refused hget), fun changes =>
      run_editBits_refused hs (bind_of_refused (BitSequence.change_of_none hnone changes))⟩

/-- **All ways to the bits agree.**  After every program, a bit sequence has a list of bits, as many as its
length.  These are the bits that commands find at their indexes and change there; that a cursor hands out from
both ends, or a clone of it; that are set in its words; and that are counted. -/
theorem bit_reads_agree (E : Element σ α) (registers : Nat) (accounts : List Account) (code : σ)
    (commands : List (Command σ α)) {a : Nat} {s : BitSequence} :
    let ws := (runAll E (initial registers accounts code) commands).2
    ws.bitSequence? a = some s → s.bits.length = s.len ∧ Accesses E ws a s ∧ s.Readable := by
  intro ws hs
  have hcounted : Counted E ws := (counted_initial registers accounts code).runAll commands
  have hs' := hcounted.bits (container?_of_bitSequence? hs)
  exact ⟨BitSequence.length_bits s, accesses_of_sound hs hs'.sound, hs'.readable⟩

/-- Three bits in two words, one of which is spare: they are taken one by one by a cursor, and, after its first
move, by a clone of it; then the one in the middle is picked out, and set. -/
theorem bit_reads_agree_spare :
    let ws := (runAll (Element.plain ⟨1, 1⟩ ()) (initial 1 [.unlimited] ())
      [.createBits 0 (.withCapacity 100) (.of ⟨0, .shared⟩), .editBits 0 (.push true), .editBits 0 (.push false),
        .editBits 0 (.push true)]).2
    let s : BitSequence := ⟨some 0, #[5, 0], 3, .of ⟨0, .shared⟩⟩
    let cursor := s.cursor.after [.next]
    ws.bitSequence? 0 = some s ∧ s.bits = [true, false, true] ∧
      TakenApart s.bits [.next, .nextBack, .next, .next]
        [(some true, [false, true]), (some true, [false]), (some false, []), (none, [])] ∧
      cursor.sizeHint = (2, some 2) ∧ (5 : Word).isSet 2 = true ∧ (5 : Word).isSet 3 = false ∧ s.countOnes = 2 ∧
      ws.run (Element.plain ⟨1, 1⟩ ()) (.editBits 0 (.get 2)) = (.answer (.bit true), ws) ∧
      ws.run (Element.plain ⟨1, 1⟩ ()) (.editBits 0 (.get 3)) = (.refused (.outOfBounds 3 3), ws) ∧
      ∃ t : BitSequence, ws.run (Element.plain ⟨1, 1⟩ ()) (.editBits 0 (.change 1 [.get, .flip, .replace true]))
          = (.answer (.bits [some false, some true, some true]), ws.put 0 (some (.bits t))) ∧
        t.bits = [true, true, true] := by
  intro ws s cursor
  have hs : ws.bitSequence? 0 = some s := rfl
  have hbits : s.bits = [true, false, true] := by decide +kernel
  obtain ⟨-, haccesses, hreadable⟩ := bit_reads_agree (Element.plain ⟨1, 1⟩ ()) 1 [.unlimited] ()
    [.createBits 0 (.withCapacity 100) (.of ⟨0, .shared⟩), .editBits 0 (.push true), .editBits 0 (.push false),
        .editBits 0 (.push true)] hs
  have hreads : s.ReadTo [.next] cursor := hreadable.cursor [.next]
  have hanswers : BitCursor.views (s.cursor.moveAll [.next] ++ cursor.moveAll [.nextBack, .next, .next])
      = [(some true, [false, true]), (some true, [false]), (some false, []), (none, [])] := by decide +kernel
  have hlen : cursor.len = 2 := by decide
  have hword : s.asWords[0]? = some 5 := by decide +kernel
  have hmiddle : s.bits[1]? = some false := by rw [hbits]; rfl
  have hlast : s.bits[2]? = some true := by rw [hbits]; rfl
  have hout : s.bits[3]? = none := by rw [hbits]; rfl
  obtain ⟨t, hchanged, hset, -⟩ := haccesses.changed hmiddle [.get, .flip, .replace true]
  refine ⟨hs, hbits, hanswers ▸ hreads.apart [.nextBack, .next, .next], hlen ▸ hreads.counted.2, ?_, ?_, ?_,
    haccesses.read hlast, (haccesses.refused hout).1, t, hchanged, ?_⟩
  · rw [hreadable.words hword (by decide)]
    exact congrArg (·.getD false) hlast
  · rw [hreadable.words hword (by decide)]
    exact congrArg (·.getD false) hout
  · rw [hreadable.ones, hbits]
    rfl
  · rw [hset, hbits]
    rfl

end Workspace

end Growable
