import Growable.Proofs.Program.Moving

/-!
# Copying contents in programs

The contents of one container are copied to another one of its kind, which takes the other's handle if that
one propagates.  Where the handle is taken and blocks cannot pass, a complete copy takes the place of the old
contents; otherwise the region is kept if there is room in it, and replaced if there is not (`Kind.Copied`).

* `Workspace.copyFrom_copies` — this is so of every copy that is done in a program;
* `Workspace.propagating_copy_done` — when a copy that hands the handle over is done for sure.
-/

namespace Growable.Workspace

variable {σ α : Type} {E : Element σ α} {ws : Workspace σ α} {a b : Nat}

/-- The workspace runs a copy on the two sequences in their registers. -/
theorem run_copyFrom_elements {s t : Sequence α} (hne : a ≠ b) (hs : ws.sequence? a = some s)
    (ht : ws.sequence? b = some t) :
    let o := (do Sequence.copyFrom E t; return .nothing : SequenceAct σ α (Answer α)) (s, ws.world)
    ws.run E (.copyFrom a b)
      = (.ofOutcome o, { ws.put a (some (.elements o.state.1)) with world := o.state.2 }) := by
  have hpair := pair?_eq_some hne (container?_of_sequence? hs) (container?_of_sequence? ht)
  simp only [run, perform, hpair, withSequence_of_some hs]
  rfl

/-- The workspace runs a copy on the two bit sequences in their registers. -/
theorem run_copyFrom_bits {s t : BitSequence} (hne : a ≠ b) (hs : ws.bitSequence? a = some s)
    (ht : ws.bitSequence? b = some t) :
    let o := (do BitSequence.copyFrom t; return .nothing : BitAct σ α (Answer α)) (s, ws.world)
    ws.run E (.copyFrom a b)
      = (.ofOutcome o, { ws.put a (some (.bits o.state.1)) with world := o.state.2 }) := by
  have hpair := pair?_eq_some hne (container?_of_bitSequence? hs) (container?_of_bitSequence? ht)
  simp only [run, perform, hpair, withBits_of_some hs]
  rfl

/-- Copying leaves the other container alone. -/
theorem run_copyFrom_other (hne : a ≠ b) :
    (ws.run E (.copyFrom a b)).2.container? b = ws.container? b := by
  have hput : ∀ {c : Container α} (slot : Option (Container α)), ws.container? a = some c →
      (ws.put a slot).container? b = ws.container? b := by
    intro c slot hc
    rw [container?_put slot (lt_of_container? hc), if_neg (Ne.symm hne)]
  apply copyFrom_cases (P := fun result =>
    (result.2.2.settle E result.2.1).container? b = ws.container? b) rfl
  · exact fun s t hpair _ _ => hput _ (pair?_of_some hpair).2.1
  · exact fun s t hpair _ _ => hput _ (pair?_of_some hpair).2.1

/-- **Copying.**  After every program, if copying the contents of the container in register `b` to the one of
the same kind in register `a` is done, it came to what `Kind.Copied` says: for sequences whose clones are
equal to their sources, and for bit sequences.  The container in register `b` is as before. -/
theorem copyFrom_copies (E : Element σ α) (hfits : E.toShape.Fits) (registers : Nat)
    (accounts : List Account) (code : σ) (commands : List (Command σ α)) {a b : Nat} (hne : a ≠ b) :
    let ws := (runAll E (initial registers accounts code) commands).2
    let result := ws.run E (.copyFrom a b)
    result.1 = .answer .nothing →
      result.2.container? b = ws.container? b ∧
      (E.Exact → ∀ s t, ws.sequence? a = some s → ws.sequence? b = some t → ∃ s' w',
        result.2 = { ws.put a (some (.elements s')) with world := w' } ∧
          (Sequence.kind E).Copied s t ws.world s' w') ∧
      ∀ s t, ws.bitSequence? a = some s → ws.bitSequence? b = some t → ∃ s' w',
        result.2 = { ws.put a (some (.bits s')) with world := w' } ∧
          BitSequence.kind.Copied s t ws.world s' w' := by
  intro ws result hdone
  have hsound : Sound E 0 ws := runAll_sound commands (sound_initial registers accounts code)
  refine ⟨run_copyFrom_other hne, ?_, ?_⟩
  · intro hE s t hs ht
    obtain ⟨hvalid, howns⟩ := hsound.parts (container?_of_sequence? hs)
    have hresult : result = _ := run_copyFrom_elements hne hs ht
    have hcopied := Post.responding_of_whenDone (α := α)
      (Sequence.copyFrom_copied (t := t) hE ⟨hvalid, howns⟩ hfits)
    rw [hresult] at hdone ⊢
    exact ⟨_, _, rfl, hcopied.response hdone⟩
  · intro s t hs ht
    obtain ⟨hvalid, howns⟩ := hsound.parts (container?_of_bitSequence? hs)
    have hother : t.Valid := hsound.valid b _ (container?_of_bitSequence? ht)
    have hresult : result = _ := run_copyFrom_bits hne hs ht
    have hcopied := Post.responding_of_whenDone (α := α)
      (BitSequence.copyFrom_copied (t := t) ⟨hvalid, howns⟩ hother)
    rw [hresult] at hdone ⊢
    exact ⟨_, _, rfl, hcopied.response hdone⟩

/-- Two elements are copied to the place of one, with a handle that comes along, and whose allocator grants a
block for them. -/
theorem copyFrom_copies_foreign :
    let own := (Handle.of ⟨0, .numbered 0⟩).interchanging Handle.sameIdentity
    let other := (Handle.of ⟨1, .numbered 1⟩).propagating true
    let E : Element Unit Nat := .plain ⟨4, 4⟩ 0
    let ws := (runAll E (initial 2 [.unlimited, .unlimited] ())
      [.create 0 (.ofList [1]) own, .create 1 (.ofList [2, 3]) other]).2
    let result := ws.run E (.copyFrom 0 1)
    result.1 = .answer .nothing ∧ result.2.container? 1 = ws.container? 1 ∧
      ∃ s' : Sequence Nat, result.2.sequence? 0 = some s' ∧ s'.items = [2, 3] ∧ s'.handle = other ∧
        s'.region = ⟨2, some 2⟩ ∧ ws.world.Emits [.granted 1 2 8, .cloned 2 2, .cloned 3 3,
          .dropped 1 false, .returned 0 0 4] result.2.world := by
  have hfits : (⟨4, 4⟩ : Shape).Fits := by
    unfold Shape.Fits
    decide
  have hE : (Element.plain ⟨4, 4⟩ 0).Exact := (Element.faithful_plain hfits 0).exact
  have hcopies := copyFrom_copies (.plain ⟨4, 4⟩ 0) hfits 2 [.unlimited, .unlimited] ()
    [.create 0 (.ofList [1]) ((Handle.of ⟨0, .numbered 0⟩).interchanging Handle.sameIdentity),
      .create 1 (.ofList [2, 3]) ((Handle.of ⟨1, .numbered 1⟩).propagating true)]
    (a := 0) (b := 1) (by decide)
  obtain ⟨hother, hsequences, _⟩ := hcopies rfl
  obtain ⟨s', w', hresult, hcopied⟩ := hsequences hE _ _ rfl rfl
  obtain ⟨hregion, hw'⟩ := hcopied.foreign ⟨rfl, rfl⟩
  rw [hregion] at hw'
  refine ⟨rfl, hother, s', ?_, hcopied.items_eq, hcopied.handle_eq, hregion, ?_⟩
  · exact congrArg (·.sequence? 0) hresult
  · exact congrArg (·.world) hresult ▸ hw'

/-- **Copies that are done.**  After every program, copying takes the contents and the handle over from a
container whose handle propagates, if every request is granted and no code of elements faults.  Where blocks
cannot pass, nothing else matters; where they can, the room is made by the handle that is given up, so that
this one has to admit the items, unless none is needed. -/
theorem propagating_copy_done (E : Element σ α) (hfits : E.toShape.Fits) (registers : Nat)
    (accounts : List Account) (code : σ) (commands : List (Command σ α)) {a b : Nat} (hne : a ≠ b) :
    let ws := (runAll E (initial registers accounts code) commands).2
    let result := ws.run E (.copyFrom a b)
    (E.Exact → ∀ s t, ws.sequence? a = some s → ws.sequence? b = some t → t.handle.propagates = true →
      (s.handle.isEquivalent t.handle = true → t.len ≤ s.len ∨ t.len ≤ s.maxSize E) →
      (∀ bytes, ws.world.Grants s.handle.allocator bytes) →
      (∀ bytes, ws.world.Grants t.handle.allocator bytes) → Sequence.CopiesCalmly E s t →
      result.1 = .answer .nothing ∧ ∃ s' w',
        result.2 = { ws.put a (some (.elements s')) with world := w' } ∧
          s'.items = t.items ∧ s'.handle = t.handle) ∧
    ∀ s t, ws.bitSequence? a = some s → ws.bitSequence? b = some t → t.handle.propagates = true →
      (s.handle.isEquivalent t.handle = true → t.len ≤ s.capacity ∨ t.len ≤ s.maxSize) →
      (∀ bytes, ws.world.Grants s.handle.allocator bytes) →
      (∀ bytes, ws.world.Grants t.handle.allocator bytes) →
      result.1 = .answer .nothing ∧ ∃ s' w',
        result.2 = { ws.put a (some (.bits s')) with world := w' } ∧
          s'.bits = t.bits ∧ s'.handle = t.handle := by
  intro ws result
  have hsound : Sound E 0 ws := runAll_sound commands (sound_initial registers accounts code)
  constructor
  · intro hE s t hs ht hcomes hlimit hgrants hgrants' hcalm
    obtain ⟨hvalid, howns⟩ := hsound.parts (container?_of_sequence? hs)
    have hother : t.Valid E := hsound.valid b _ (container?_of_sequence? ht)
    have hresult : result = _ := run_copyFrom_elements hne hs ht
    have hdone := Post.responding_of_returns (α := α) (Sequence.copyFrom_done hE hcalm ⟨hvalid, howns⟩
      hother hfits hgrants hgrants' fun hown => hlimit (Handle.isEquivalent_of_own hcomes hown))
    obtain ⟨hresponse, hcopied⟩ := hdone.response
    rw [hresult]
    exact ⟨hresponse, _, _, rfl, hcopied.items_eq, hcopied.handle_eq.trans (if_pos hcomes)⟩
  · intro s t hs ht hcomes hlimit hgrants hgrants'
    obtain ⟨hvalid, howns⟩ := hsound.parts (container?_of_bitSequence? hs)
    have hother : t.Valid := hsound.valid b _ (container?_of_bitSequence? ht)
    have hresult : result = _ := run_copyFrom_bits hne hs ht
    have hdone := Post.responding_of_returns (α := α) (BitSequence.copyFrom_done ⟨hvalid, howns⟩ hother
      hgrants hgrants' fun hown => hlimit (Handle.isEquivalent_of_own hcomes hown))
    obtain ⟨hresponse, hcopied⟩ := hdone.response
    rw [hresult]
    exact ⟨hresponse, _, _, rfl, hcopied.items_eq, hcopied.handle_eq.trans (if_pos hcomes)⟩

/-- Two elements come with their handle to a sequence whose own handle admits no more. -/
theorem propagating_copy_done_equivalent :
    let E : Element Unit Nat := .plain ⟨4, 4⟩ 0
    let adopted := (Handle.of ⟨0, .shared⟩).propagating true
    let ws := (runAll E (initial 2 [.unlimited] ())
      [.create 0 .empty ((Handle.of ⟨0, .shared⟩).capped 8), .create 1 (.ofList [1, 2]) adopted]).2
    let result := ws.run E (.copyFrom 0 1)
    result.1 = .answer .nothing ∧ ∃ s' : Sequence Nat, result.2.sequence? 0 = some s' ∧
      s'.items = [1, 2] ∧ s'.handle = adopted := by
  have hfits : (⟨4, 4⟩ : Shape).Fits := by
    unfold Shape.Fits
    decide
  have hE : (Element.plain ⟨4, 4⟩ 0).Faithful := Element.faithful_plain hfits 0
  obtain ⟨hsequences, _⟩ := propagating_copy_done (.plain ⟨4, 4⟩ 0) hfits 2 [.unlimited] ()
    [.create 0 .empty ((Handle.of ⟨0, .shared⟩).capped 8),
      .create 1 (.ofList [1, 2]) ((Handle.of ⟨0, .shared⟩).propagating true)] (a := 0) (b := 1) (by decide)
  have hadopted := hsequences hE.exact _ _ rfl rfl rfl
  have hadmitted := hadopted fun _ => .inr (by decide)
  have hgranted := hadmitted fun _ => ⟨_, rfl, rfl⟩
  have hgranted' := hgranted fun _ => ⟨_, rfl, rfl⟩
  obtain ⟨hdone, s', w', hresult, hitems, hhandle⟩ :=
    hgranted' (Sequence.copiesCalmly_of_faithful hE _ _)
  exact ⟨hdone, s', congrArg (·.sequence? 0) hresult, hitems, hhandle⟩

/-- Three elements, or one bit, that the handle which comes along admits are refused where the one that is
given up admits fewer; and a copy is not done where an old element faults when it is dropped. -/
theorem propagating_copy_limited :
    let E : Element Unit Nat := .plain ⟨4, 4⟩ 0
    let adopted := (Handle.of ⟨0, .shared⟩).propagating true
    let elements := (runAll E (initial 2 [.unlimited] ())
      [.create 0 .empty ((Handle.of ⟨0, .shared⟩).capped 8), .create 1 (.ofList [1, 2, 3]) adopted]).2
    let bits := (runAll E (initial 2 [.unlimited] ())
      [.createBits 0 .empty ((Handle.of ⟨0, .shared⟩).capped 7), .createBits 1 (.ofList [true]) adopted]).2
    let probes := (runAll Probe.element (initial 2 [.unlimited] none)
      [.create 0 .empty ((Handle.of ⟨0, .shared⟩).interchanging fun _ _ => false),
        .edit 0 (.push ⟨1, false, true⟩), .create 1 (.ofList [.of 2]) adopted]).2
    E.Faithful ∧ (∀ bytes, elements.world.Grants ⟨0, .shared⟩ bytes) ∧ 3 ≤ adopted.maxSize 4 ∧
      (elements.run E (.copyFrom 0 1)).1 = .refused .capacityExceeded ∧
      (bits.run E (.copyFrom 0 1)).1 = .refused .capacityExceeded ∧
      (probes.run Probe.element (.copyFrom 0 1)).1 = .faulted (.raised "probe d1") := by
  have hfits : (⟨4, 4⟩ : Shape).Fits := by
    unfold Shape.Fits
    decide
  exact ⟨Element.faithful_plain hfits 0, fun _ => ⟨_, rfl, rfl⟩, by decide, rfl, rfl, rfl⟩

end Growable.Workspace
