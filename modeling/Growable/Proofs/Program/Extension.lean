import Growable.Probe
import Growable.Proofs.Program.Custody

/-!
# Extensions that fail in programs

A sequence is extended by clones of some elements.  When the room is refused, the sequence stays as it
was; so it does when a clone faults in the larger region that takes the place of the old one.  But where
there was room for all of the clones, those made before the fault stay at the end
(`Workspace.extendAll_leaves`): only the length and the elements behind the old ones have changed then,
and nothing has if it was the first clone that faulted.
-/

namespace Growable

variable {σ α : Type}

/-- What an extension leaves when it fails after the clones `made`. -/
def Sequence.extended (s : Sequence α) (count : Nat) (made : List α) : Sequence α :=
  if s.capacity < s.len + count then s else { s with items := s.items ++ made }

/-- An extension is an insertion at the end that was interrupted. -/
theorem Sequence.extended_eq (s : Sequence α) (count : Nat) (made : List α) :
    ({ s with items := s.interrupted s.len count made } : Sequence α) = s.extended count made := by
  unfold interrupted extended
  split
  · rfl
  · rw [len, List.take_length, List.drop_length, List.append_nil]

/-- An extension that is refused changes nothing, and one that faults keeps at most the clones made. -/
theorem Sequence.extendAll_fails {E : Element σ α} {s : Sequence α} {w : World σ α}
    {m : Multiset (Asset α)} (hfits : E.toShape.Fits) (xs : List α) (hs : Sound E m (s, w)) :
    (extendAll E xs (s, w)).Meets
      ⟨fun _ _ => True, fun _ u => u.1 = s,
        fun f u => ∃ made, made.length < xs.length ∧ Staging.Made (E.ClonedFrom xs) 0 made ∧
          E.CloneFaults xs made.length f ∧ u.1 = s.extended xs.length made⟩ := by
  refine (extendAll_meets xs hs).imp (fun _ _ _ => trivial) (fun _ _ hu => hu.2.2) ?_
  intro f u hu
  obtain ⟨_, made, hlen, hmade, hf, hleft⟩ := hu.2.2 hfits
  exact ⟨made, hlen, hmade, hf, hleft.trans (s.extended_eq xs.length made)⟩

namespace Workspace

variable {ws : Workspace σ α} {a : Nat} {s : Sequence α}

/-- An operation on a sequence ends as it does outside of the workspace, and what it leaves is in the
register. -/
theorem run_edit_cases {E : Element σ α} {e : Edit α} {act : SequenceAct σ α Unit}
    {post : Post (Sequence α × World σ α) Unit} (hperform : e.perform E = (do act; return .nothing))
    (hc : ws.sequence? a = some s) (h : (act (s, ws.world)).Meets post) :
    let result := ws.run E (.edit a e)
    ∃ u, result.2.sequence? a = some u.1 ∧ result.2.world = u.2 ∧
      (result.1 = .answer .nothing → post.done () u) ∧
      (∀ error, result.1 = .refused error → post.refused error u) ∧
      ∀ fault, result.1 = .faulted fault → post.faulted fault u := by
  intro result
  have hlt := lt_of_container? (container?_of_sequence? hc)
  have hanswer : (e.perform E (s, ws.world)).Meets
      ⟨fun _ => post.done (), post.refused, post.faulted⟩ := by
    rw [hperform, Act.bind_meets]
    exact h
  have hresult : result = (.ofOutcome (e.perform E (s, ws.world)),
      { ws.put a (some (.elements (e.perform E (s, ws.world)).state.1)) with
        world := (e.perform E (s, ws.world)).state.2 }) := by
    simp only [result, run, perform, withSequence_of_some hc]
    rfl
  rw [hresult]
  generalize e.perform E (s, ws.world) = o at hanswer
  have hput : ∀ t : Sequence α, (ws.put a (some (.elements t))).sequence? a = some t :=
    fun t => sequence?_of_elements (by rw [container?_put _ hlt, if_pos rfl])
  refine ⟨o.state, hput _, rfl, ?_⟩
  cases o with
  | done answer u =>
      refine ⟨fun _ => hanswer, fun error he => ?_, fun fault hf => ?_⟩
      · cases he
      · cases hf
  | refused error u =>
      refine ⟨fun hdone => ?_, fun error' he => ?_, fun fault hf => ?_⟩
      · cases hdone
      · cases he
        exact hanswer
      · cases hf
  | faulted fault u =>
      refine ⟨fun hdone => ?_, fun error he => ?_, fun fault' hf => ?_⟩
      · cases hdone
      · cases he
      · cases hf
        exact hanswer

/-- **What a failed extension leaves.**  After every program, whatever the allocators do, a refused
extension leaves the sequence exactly as it was.  If a clone faults, the sequence stays exactly as it was
where it had to grow; where there was room for all clones, it keeps its region and its handle, and its
elements are followed by the clones made before the one that faulted. -/
theorem extendAll_leaves (E : Element σ α) (hfits : E.toShape.Fits) (registers : Nat)
    (accounts : List Account) (code : σ) (commands : List (Command σ α)) {a : Nat} {s : Sequence α}
    (xs : List α) :
    let ws := (runAll E (initial registers accounts code) commands).2
    let result := ws.run E (.edit a (.extendAll xs))
    ws.sequence? a = some s → ∃ t, result.2.sequence? a = some t ∧
      (∀ error, result.1 = .refused error → t = s) ∧
      ∀ fault, result.1 = .faulted fault → ∃ made, made.length < xs.length ∧
        Staging.Made (E.ClonedFrom xs) 0 made ∧ E.CloneFaults xs made.length fault ∧
        t = if s.capacity < s.len + xs.length then s else { s with items := s.items ++ made } := by
  intro ws result hc
  have hsound : Sound E 0 ws := runAll_sound commands (sound_initial registers accounts code)
  obtain ⟨hvalid, howns⟩ := hsound.parts (container?_of_sequence? hc)
  obtain ⟨u, hu, _, _, hrefused, hfaulted⟩ :=
    run_edit_cases (e := .extendAll xs) rfl hc (Sequence.extendAll_fails hfits xs ⟨hvalid, howns⟩)
  exact ⟨u.1, hu, hrefused, hfaulted⟩

/-- A probe is cloned into a sequence with room for four, and the one after it faults. -/
theorem extendAll_leaves_clone :
    let handle := Handle.of ⟨0, .shared⟩
    let ws := (runAll Probe.element (initial 1 [.unlimited] none)
      [.create 0 (.withCapacity 4) handle]).2
    let result := ws.run Probe.element (.edit 0 (.extendAll [.of 1, ⟨2, true, false⟩]))
    ws.sequence? 0 = some ⟨⟨4, some 0⟩, [], handle⟩ ∧
      result.1 = .faulted (.raised "probe c2") ∧ ∃ made : List Probe, made.length < 2 ∧
        result.2.sequence? 0 = some ⟨⟨4, some 0⟩, made, handle⟩ := by
  have hfits : Probe.element.toShape.Fits := by
    unfold Shape.Fits
    decide
  obtain ⟨t, ht, _, hfaulted⟩ := extendAll_leaves Probe.element hfits 1 [.unlimited] none
    [.create 0 (.withCapacity 4) (Handle.of ⟨0, .shared⟩)] (a := 0)
    (s := ⟨⟨4, some 0⟩, [], Handle.of ⟨0, .shared⟩⟩) [.of 1, ⟨2, true, false⟩] rfl
  obtain ⟨made, hlen, _, _, rfl⟩ := hfaulted (.raised "probe c2") rfl
  exact ⟨rfl, rfl, made, hlen, ht⟩

/-- The extension faults, and does not leave the sequence as it was: the first clone stays in it. -/
theorem extendAll_keeps_clone :
    let ws := (runAll Probe.element (initial 1 [.unlimited] none)
      [.create 0 (.withCapacity 4) (Handle.of ⟨0, .shared⟩)]).2
    let result := ws.run Probe.element (.edit 0 (.extendAll [.of 1, ⟨2, true, false⟩]))
    result.1 = .faulted (.raised "probe c2") ∧
      (ws.sequence? 0).map Sequence.items = some [] ∧
      (result.2.sequence? 0).map Sequence.items = some [.of 1] ∧
      result.2.sequence? 0 ≠ ws.sequence? 0 :=
  ⟨rfl, rfl, rfl, fun h => nomatch congrArg (Option.map Sequence.items) h⟩

end Workspace

end Growable
