import Growable.Probe
import Growable.Proofs.BitSequence.Handover
import Growable.Proofs.Program.Custody
import Growable.Proofs.Sequence.Handover

/-!
# Moving contents in programs

The contents of one container are moved into another one of its kind.  Whatever the two handles are and
whatever the containers hold, and whether or not old elements fault when they are dropped, the outcome is
one of three: the region changes hands, the items are moved to a new region, or nothing happens because
the new region was declined (`Kind.Moved`).  `Workspace.moveFrom_moves` says so of every program.
-/

namespace Growable.Workspace

variable {σ α : Type} {E : Element σ α} {ws : Workspace σ α} {a b : Nat}

/-- Two registers that are not the same one have the pair of their containers. -/
theorem pair?_eq_some {c d : Container α} (hne : a ≠ b) (hc : ws.container? a = some c)
    (hd : ws.container? b = some d) : ws.pair? a b = some (c, d) := by
  unfold pair?
  rw [if_neg hne, hc, hd]

/-- The workspace runs a move on the two sequences in their registers. -/
theorem run_moveFrom_elements {s t : Sequence α} (hne : a ≠ b) (hs : ws.sequence? a = some s)
    (ht : ws.sequence? b = some t) :
    let o := (do Sequence.moveFrom E; return .nothing :
      Act ((Sequence α × Sequence α) × World σ α) (Answer α)) ((s, t), ws.world)
    ws.run E (.moveFrom a b) = (.ofOutcome o, { (ws.put a (some (.elements o.state.1.1))).put b
      (some (.elements o.state.1.2)) with world := o.state.2 }) := by
  have hpair := pair?_eq_some hne (container?_of_sequence? hs) (container?_of_sequence? ht)
  simp only [run, perform, hpair, withSequences_of_some hne hs ht]
  rfl

/-- The workspace runs a move on the two bit sequences in their registers. -/
theorem run_moveFrom_bits {s t : BitSequence} (hne : a ≠ b) (hs : ws.bitSequence? a = some s)
    (ht : ws.bitSequence? b = some t) :
    let o := (do BitSequence.moveFrom; return .nothing :
      Act ((BitSequence × BitSequence) × World σ α) (Answer α)) ((s, t), ws.world)
    ws.run E (.moveFrom a b) = (.ofOutcome o, { (ws.put a (some (.bits o.state.1.1))).put b
      (some (.bits o.state.1.2)) with world := o.state.2 }) := by
  have hpair := pair?_eq_some hne (container?_of_bitSequence? hs) (container?_of_bitSequence? ht)
  simp only [run, perform, hpair, withBitSequences_of_some hne hs ht]
  rfl

/-- **Moving.**  After every program, moving the contents of the container in register `b` into the one of
the same kind in register `a` comes to what `Kind.Moved` says, for sequences and for bit sequences; all
other registers are as before. -/
theorem moveFrom_moves (E : Element σ α) (hfits : E.toShape.Fits) (registers : Nat)
    (accounts : List Account) (code : σ) (commands : List (Command σ α)) {a b : Nat} (hne : a ≠ b) :
    let ws := (runAll E (initial registers accounts code) commands).2
    let result := ws.run E (.moveFrom a b)
    (∀ s t, ws.sequence? a = some s → ws.sequence? b = some t → ∃ s' t' w',
      result.2 = { (ws.put a (some (.elements s'))).put b (some (.elements t')) with world := w' } ∧
        (Sequence.kind E).Moved E s t ws.world result.1 s' t' w') ∧
    ∀ s t, ws.bitSequence? a = some s → ws.bitSequence? b = some t → ∃ s' t' w',
      result.2 = { (ws.put a (some (.bits s'))).put b (some (.bits t')) with world := w' } ∧
        BitSequence.kind.Moved E s t ws.world result.1 s' t' w' := by
  intro ws result
  have hsound : Sound E 0 ws := runAll_sound commands (sound_initial registers accounts code)
  constructor
  · intro s t hs ht
    obtain ⟨hvalid, hvalid', _⟩ :=
      hsound.parts_pair hne (container?_of_sequence? hs) (container?_of_sequence? ht)
    have hresult : result = _ := run_moveFrom_elements hne hs ht
    rw [hresult]
    exact ⟨_, _, _, rfl, (Sequence.moveFrom_moved hvalid hvalid' hfits ws.world).response⟩
  · intro s t hs ht
    obtain ⟨hvalid, hvalid', howns⟩ :=
      hsound.parts_pair hne (container?_of_bitSequence? hs) (container?_of_bitSequence? ht)
    have hpair : BitSequence.SoundPair _ ((s, t), ws.world) := ⟨hvalid, hvalid', howns⟩
    have hresult : result = _ := run_moveFrom_bits hne hs ht
    rw [hresult]
    exact ⟨_, _, _, rfl, (BitSequence.moveFrom_moved E hpair).response⟩

/-- Two elements are moved to the place of one that faults when it is dropped, from a sequence whose blocks
cannot pass. -/
theorem moveFrom_moves_faulted :
    let own := (Handle.of ⟨0, .numbered 0⟩).interchanging Handle.sameIdentity
    let other := Handle.of ⟨1, .numbered 1⟩
    let ws := (runAll Probe.element (initial 2 [.unlimited, .unlimited] none)
      [.create 0 .empty own, .edit 0 (.push ⟨1, false, true⟩), .create 1 (.ofList [.of 2, .of 3]) other]).2
    let result := ws.run Probe.element (.moveFrom 0 1)
    result.1 = .faulted (.raised "probe d1") ∧ ∃ s' t' : Sequence Probe,
      result.2.sequence? 0 = some s' ∧ s'.items = [.of 2, .of 3] ∧ s'.region = ⟨2, some 2⟩ ∧
        result.2.sequence? 1 = some t' ∧ t'.items = [] ∧ t'.region = ⟨2, some 1⟩ := by
  have hfits : Probe.element.toShape.Fits := by
    unfold Shape.Fits
    decide
  obtain ⟨hsequences, _⟩ := moveFrom_moves Probe.element hfits 2 [.unlimited, .unlimited] none
    [.create 0 .empty ((Handle.of ⟨0, .numbered 0⟩).interchanging Handle.sameIdentity),
      .edit 0 (.push ⟨1, false, true⟩), .create 1 (.ofList [.of 2, .of 3]) (Handle.of ⟨1, .numbered 1⟩)]
    (a := 0) (b := 1) (by decide)
  obtain ⟨s', t', w', hresult, hmoved⟩ := hsequences _ _ rfl rfl
  obtain ⟨hhanded, hregion, hleft⟩ := hmoved.carried rfl fun _ => ⟨_, rfl, rfl⟩
  refine ⟨hhanded.response_eq, s', t', ?_, hhanded.items_eq, hregion, ?_, hhanded.items_left, hleft⟩
  · exact congrArg (·.sequence? 0) hresult
  · exact congrArg (·.sequence? 1) hresult

end Growable.Workspace
