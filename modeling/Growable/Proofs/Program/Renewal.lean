import Growable.Proofs.Program.Replacement
import Growable.Proofs.Sequence.Supplanting

/-!
# Assignments in programs

Where there is room for them, the elements that are assigned to a sequence take the places of its own one by
one, so that old and new elements stand beside each other when the assignment is interrupted:
`Workspace.assignment_leaves` says what is left, whichever call of element code or of an iterator faults.
-/

namespace Growable.Workspace

variable {σ α : Type} {E : Element σ α} {ws : Workspace σ α} {a : Nat} {s : Sequence α} {e : Edit α}
  {xs : List α}

/-- If no call faults, the clones are the contents, and the surplus of the old elements is dropped. -/
theorem run_assign_renewed (hs : ws.sequence? a = some s) (he : e.Assigns xs)
    (hroom : xs.length ≤ s.capacity) (hmax : xs.length ≤ s.maxSize E)
    (hdone : (E.renew s.items xs ws.world.code).fault? = none) :
    let r := E.renew s.items xs ws.world.code
    let surplus := s.items.drop xs.length
    let events := Element.renewals s.items xs r.made ++ E.dropEvents surplus r.code
    ws.run E (.edit a e) = (.dropping .nothing (E.dropFault? surplus r.code),
      { ws.put a (some (.elements { s with items := r.made })) with
        world := ws.world.after events (E.afterDrops surplus r.code) }) := by
  intro r surplus events
  obtain ⟨source, hreads, hperform⟩ := he.perform_eq
  have hassigned := Sequence.assignMade_renewed (w := ws.world) hreads.eq_pure hroom hmax hdone
  simp only [(Element.renew_done hdone).2.2] at hassigned
  exact run_edit_raising hperform hs hassigned

/-- If a call faults, the clones made before it stand before what the fault left, and before the old elements
whose turn had not come. -/
theorem run_assign_interrupted (hs : ws.sequence? a = some s) (he : e.Assigns xs)
    (hroom : xs.length ≤ s.capacity) (hmax : xs.length ≤ s.maxSize E) {message : String}
    (hfault : (E.renew s.items xs ws.world.code).fault? = some message) :
    let r := E.renew s.items xs ws.world.code
    let k := r.made.length
    ∃ x code, xs[k]? = some x ∧ r.left? = E.leftOver s.items[k]? x code ∧
      let t : Sequence α := { s with items := r.made ++ r.left?.toList ++ s.items.drop (k + 1) }
      let events := Element.renewals s.items xs r.made ++ [.renewFaulted x s.items[k]? r.left?]
      ws.run E (.edit a e) = (.faulted (.raised message),
        { ws.put a (some (.elements t)) with world := ws.world.after events r.code }) := by
  intro r k
  obtain ⟨source, hreads, hperform⟩ := he.perform_eq
  obtain ⟨x, code, hx, hleft, hevents⟩ := Element.renew_faulted hfault
  have hcontents : r.contents s.items = r.made ++ r.left?.toList ++ s.items.drop (k + 1) :=
    Element.leftOver_contents hleft
  have hassigned := Sequence.assignMade_interrupted (w := ws.world) hreads.eq_pure hroom hmax hfault
  simp only [hevents] at hassigned
  refine ⟨x, code, hx, hleft, ?_⟩
  rw [run_edit hs, hperform, Act.bind_of_faulted hassigned, ← hcontents]
  rfl

/-- **What an assignment leaves.**  After every program, elements are assigned to the sequence in register
`a`.

Where there is room for clones of `xs`, there is one call for each clone: the old elements are overwritten
in order, as far as both reach, and then clones are made behind.  If no call faults, the clones are the
contents, and the old elements that are left over are dropped, whether their drops fault or not.  If the call
numbered `k` faults, the `k` clones made before it stand before what the fault left in the place of the `k`-th
old element, if there was one, and before the old elements behind it.  Where element code that faults leaves
the element that it was to overwrite, these are the old elements from the `k`-th one on.  The region is the
same.

The elements of an iterator end in one of the ways that `Sequence.FeedEnds` lists. -/
theorem assignment_leaves (E : Element σ α) (hfits : E.toShape.Fits) (registers : Nat)
    (accounts : List Account) (code : σ) (commands : List (Command σ α)) {a : Nat} {s : Sequence α} :
    let ws := (runAll E (initial registers accounts code) commands).2
    ws.sequence? a = some s →
      (∀ e xs, e.Assigns xs → xs.length ≤ s.capacity → xs.length ≤ s.maxSize E →
        let r := E.renew s.items xs ws.world.code
        let k := r.made.length
        let overwritings := List.zipWith3 .overwritten s.items xs r.made
        let clonings := List.zipWith .cloned (xs.drop s.len) (r.made.drop s.len)
        let surplus := s.items.drop xs.length
        let result := ws.run E (.edit a e)
        (r.fault? = none →
          let t : Sequence α := { s with items := r.made }
          let events := overwritings ++ clonings ++ E.dropEvents surplus r.code
          result = (.dropping .nothing (E.dropFault? surplus r.code), { ws.put a (some (.elements t)) with
            world := ws.world.after events (E.afterDrops surplus r.code) }) ∧
            k = xs.length ∧ overwritings.length = min s.len xs.length ∧
            clonings.length = xs.length - s.len) ∧
        ∀ message, r.fault? = some message →
          ∃ x code, xs[k]? = some x ∧ r.left? = E.leftOver s.items[k]? x code ∧
            let t : Sequence α := { s with items := r.made ++ r.left?.toList ++ s.items.drop (k + 1) }
            let events := overwritings ++ clonings ++ [.renewFaulted x s.items[k]? r.left?]
            result = (.faulted (.raised message), { ws.put a (some (.elements t)) with
              world := ws.world.after events r.code }) ∧ t.len = max k s.len ∧
              ((∀ old x code, E.remains old x code = old) → t.items = r.made ++ s.items.drop k)) ∧
      ∀ feed, let result := ws.run E (.edit a (.assignFeed feed))
        ∃ t w' asks, result.2 = { ws.put a (some (.elements t)) with world := w' } ∧
          ws.world.Asks asks w' ∧ Sequence.FeedEnds E s ws.world.code feed t.items asks result.1 := by
  intro ws hs
  have hsound : Sound E 0 ws := runAll_sound commands (sound_initial registers accounts code)
  obtain ⟨hvalid, howns⟩ := hsound.parts (container?_of_sequence? hs)
  constructor
  · intro e xs he hroom hmax r k overwritings clonings surplus result
    constructor
    · intro hdone
      have hlength : k = xs.length := (Element.renew_done hdone).1
      exact ⟨run_assign_renewed hs he hroom hmax hdone, hlength, Element.length_renewals hlength⟩
    · intro message hfault
      obtain ⟨x, code, hx, hleft, hresult⟩ := run_assign_interrupted hs he hroom hmax hfault
      refine ⟨x, code, hx, hleft, hresult, ?_, fun hstays => ?_⟩
      · exact (congrArg List.length (Element.leftOver_contents hleft)).symm.trans
          (Element.length_leftOver_contents hleft)
      · exact Element.contents_of_stays hleft hstays
  · intro feed result
    have hresult : result = _ := run_edit hs
    have hends := (Sequence.assignFeed_ends ⟨hvalid, howns⟩ hfits feed).response
    obtain ⟨asks, hasks, hends⟩ := hends
    rw [hresult]
    exact ⟨_, _, asks, rfl, hasks, hends⟩

/-- Probes are assigned to three, of which the second faults when it is dropped: two, the second of which
cannot be cloned; one; and three that come from an iterator. -/
theorem assignment_leaves_probes :
    let olds : Sequence Probe := ⟨⟨4, some 0⟩, [.of 1, ⟨2, false, true⟩, .of 3], Handle.of ⟨0, .shared⟩⟩
    let feed : Feed Probe := .ofList [.of 7, .of 8, .of 9] .finish
    let ws := (runAll Probe.element (initial 1 [.unlimited] none)
      [.create 0 .empty (Handle.of ⟨0, .shared⟩), .edit 0 (.push (.of 1)),
        .edit 0 (.push ⟨2, false, true⟩), .edit 0 (.push (.of 3))]).2
    let interrupted := ws.run Probe.element (.edit 0 (.assignAll [.of 5, ⟨6, true, false⟩]))
    let done := ws.run Probe.element (.edit 0 (.assignCopies 1 (.of 5)))
    let fed := ws.run Probe.element (.edit 0 (.assignFeed feed))
    (interrupted.1 = .faulted (.raised "probe f2:6") ∧ interrupted.2.sequence? 0
        = some { olds with items := [.of 5, ⟨2, false, true⟩, .of 3] }) ∧
      (done.1 = .faulted (.raised "probe d2") ∧
        done.2.sequence? 0 = some { olds with items := [.of 5] }) ∧
      ∃ t asks, fed.2.sequence? 0 = some t ∧ ws.world.Asks asks fed.2.world ∧
        Sequence.FeedEnds Probe.element olds none feed t.items asks fed.1 := by
  intro olds feed ws interrupted done fed
  have hfits : Probe.element.toShape.Fits := by
    unfold Shape.Fits
    decide
  have hs : ws.sequence? 0 = some olds := rfl
  obtain ⟨hmade, hfed⟩ := assignment_leaves Probe.element hfits 1 [.unlimited] none
    [.create 0 .empty (Handle.of ⟨0, .shared⟩), .edit 0 (.push (.of 1)),
      .edit 0 (.push ⟨2, false, true⟩), .edit 0 (.push (.of 3))] hs
  obtain ⟨_, hinterrupted⟩ := hmade _ _ (.all [.of 5, ⟨6, true, false⟩]) (by decide) (by decide)
  obtain ⟨_, _, _, _, hinterrupted, _⟩ := hinterrupted "probe f2:6" rfl
  obtain ⟨hdone, _⟩ := hmade _ _ (.copies 1 (.of 5)) (by decide) (by decide)
  obtain ⟨hdone, _⟩ := hdone rfl
  obtain ⟨t, w', asks, hresult, hasks, hends⟩ := hfed feed
  have hasked : ws.world.Asks asks fed.2.world := by
    rw [show fed.2.world = w' from congrArg (·.world) hresult]
    exact hasks
  exact ⟨⟨congrArg Prod.fst hinterrupted, congrArg (·.2.sequence? 0) hinterrupted⟩,
    ⟨congrArg Prod.fst hdone, congrArg (·.2.sequence? 0) hdone⟩, t, asks,
    congrArg (·.sequence? 0) hresult, hasked, hends⟩

/-- A fault need not leave the old elements from the one on whose turn it was.  Where a clone takes the place
of an old probe, and the old probe faults when it is dropped, the clone stays; and an old probe that is left
over does not come back when it faults while it is dropped. -/
theorem interrupted_probes_replaced :
    let E := Probe.element.overwritingByClone
    let olds : List Probe := [⟨1, false, true⟩, .of 2]
    let ws := (runAll E (initial 1 [.unlimited] none)
      [.create 0 .empty (Handle.of ⟨0, .shared⟩), .edit 0 (.push ⟨1, false, true⟩), .edit 0 (.push (.of 2))]).2
    let overwritten := ws.run E (.edit 0 (.assignAll [.of 7, .of 8]))
    let olds' : List Probe := [.of 1, ⟨2, false, true⟩]
    let ws' := (runAll Probe.element (initial 1 [.unlimited] none)
      [.create 0 .empty (Handle.of ⟨0, .shared⟩), .edit 0 (.push (.of 1)), .edit 0 (.push ⟨2, false, true⟩)]).2
    let truncated := ws'.run Probe.element (.edit 0 (.assignAll [.of 7]))
    ((ws.sequence? 0).map (·.items) = some olds ∧ overwritten.1 = .faulted (.raised "probe d1") ∧
        (overwritten.2.sequence? 0).map (·.items) = some [.of 7, .of 2] ∧
        [.of 7, .of 2] ≠ [.of 7, .of 8].take 0 ++ olds.drop 0) ∧
      (ws'.sequence? 0).map (·.items) = some olds' ∧ truncated.1 = .faulted (.raised "probe d2") ∧
        (truncated.2.sequence? 0).map (·.items) = some [.of 7] ∧
        [.of 7] ≠ [.of 7].take 1 ++ olds'.drop 1 :=
  ⟨⟨rfl, rfl, rfl, by decide⟩, rfl, rfl, rfl, by decide⟩

end Growable.Workspace
