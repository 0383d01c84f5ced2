import Growable.Probe
import Growable.Proofs.Program.Responses
import Growable.Proofs.Sequence.Trace

/-!
# Removals in programs

Elements of a sequence are removed in several ways: a span of them (`Edit.eraseSpan`), all behind some length
(`Edit.truncate`, and a resizing to a shorter length), or all (`Edit.clear`).  It comes to the same
(`Edit.Removes`): the elements are dropped front to back, each of them once, and the others close up.

A removal is complete even if it faults: `Workspace.removal_completes`.
-/

namespace Growable

variable {σ α : Type} {E : Element σ α} {s : Sequence α}

/-- The edit removes the elements of `s` from `start` up to `stop`. -/
inductive Edit.Removes (s : Sequence α) : Edit α → Nat → Nat → Prop
  /-- Those of a span, in whichever way its ends are given. -/
  | span {span : Span} {start stop : Nat} (hspan : span.within s.len = .ok (start, stop)) :
      Removes s (.eraseSpan span) start stop
  | truncate (n : Nat) : Removes s (.truncate n) n s.len
  | clear : Removes s .clear 0 s.len
  | resizeDefault {n : Nat} (hshort : n ≤ s.len) : Removes s (.resizeDefault n) n s.len
  | resizeBy {n : Nat} (maker : Maker α) (hshort : n ≤ s.len) : Removes s (.resizeBy n maker) n s.len

namespace Workspace

variable {ws : Workspace σ α} {a : Nat} {e : Edit α} {start stop : Nat}

/-- Removals of all elements behind some length are truncations. -/
theorem run_truncating {act : SequenceAct σ α Unit} {n : Nat}
    (hperform : e.perform E = (do act; return .nothing)) (hs : ws.sequence? a = some s)
    (hact : act (s, ws.world) = Sequence.truncate E n (s, ws.world)) :
    let removed := (s.items.drop n).take (s.len - n)
    ws.run E (.edit a e) = (.dropping .nothing (E.dropFault? removed ws.world.code),
      { ws.put a (some (.elements { s with items := s.items.take n ++ s.items.drop s.len })) with
        world := ws.world.after (E.dropEvents removed ws.world.code)
          (E.afterDrops removed ws.world.code) }) := by
  intro removed
  have hremoved : removed = s.items.drop n := by
    apply List.take_of_length_le
    rw [List.length_drop]
    exact Nat.le_refl _
  rw [hremoved, Sequence.len, List.drop_length, List.append_nil]
  apply run_edit_raising hperform hs
  rw [hact]
  exact Sequence.truncate_raising n

/-- **Removals are complete, even if they fault.**  The elements of the sequence in register `a` from `start`
up to `stop` are removed.  Each of them is dropped once, front to back, and nothing else happens; the others
are left, in their order, in the same region and under the same handle.  A fault goes on exactly if the drop
of some element that is removed faults. -/
theorem removal_completes (hs : ws.sequence? a = some s) (he : e.Removes s start stop) :
    let removed := (s.items.drop start).take (stop - start)
    let t : Sequence α := { s with items := s.items.take start ++ s.items.drop stop }
    let events := E.dropEvents removed ws.world.code
    let result := ws.run E (.edit a e)
    result = (.dropping .nothing (E.dropFault? removed ws.world.code), { ws.put a (some (.elements t)) with
        world := ws.world.after events (E.afterDrops removed ws.world.code) }) ∧
      events.map Event.dropped? = removed.map some ∧
      ((∃ f, result.1 = .faulted f) ↔ E.SomeDropFaults removed ws.world.code) := by
  intro removed t events result
  have hresult : result = (.dropping .nothing (E.dropFault? removed ws.world.code),
      { ws.put a (some (.elements t)) with
        world := ws.world.after events (E.afterDrops removed ws.world.code) }) := by
    cases he with
    | span hspan => exact run_edit_raising rfl hs (Sequence.eraseSpan_raising hspan)
    | truncate n => exact run_truncating rfl hs rfl
    | clear => exact run_truncating rfl hs rfl
    | resizeDefault hshort => exact run_truncating rfl hs (Sequence.resizeMade_of_le _ hshort)
    | resizeBy maker hshort => exact run_truncating rfl hs (Sequence.resizeMade_of_le _ hshort)
  refine ⟨hresult, E.dropped?_dropEvents removed _, ?_⟩
  rw [hresult]
  exact Response.faulted_dropping_iff

/-- Two probes in the middle of four are removed, both of which fault when they are dropped. -/
theorem removal_completes_inner :
    let ws := (runAll Probe.element (initial 1 [.unlimited] none)
      [.create 0 .empty (Handle.of ⟨0, .shared⟩), .edit 0 (.push (.of 1)),
        .edit 0 (.push ⟨2, false, true⟩), .edit 0 (.push ⟨3, false, true⟩), .edit 0 (.push (.of 4))]).2
    let result := ws.run Probe.element (.edit 0 (.eraseSpan ⟨.excluded 0, .included 2⟩))
    result.1 = .faulted (.raised "probe d2") ∧
      result.2.sequence? 0 = some ⟨⟨4, some 0⟩, [.of 1, .of 4], Handle.of ⟨0, .shared⟩⟩ ∧
      result.2.world
        = ws.world.after [.dropped ⟨2, false, true⟩ true, .dropped ⟨3, false, true⟩ false] none := by
  intro ws result
  have hs : ws.sequence? 0 = some ⟨⟨4, some 0⟩, [.of 1, ⟨2, false, true⟩, ⟨3, false, true⟩, .of 4],
      Handle.of ⟨0, .shared⟩⟩ := rfl
  have hspan : Span.within ⟨.excluded 0, .included 2⟩ 4 = .ok (1, 3) := rfl
  obtain ⟨hresult, _, _⟩ := removal_completes (E := Probe.element) hs (.span hspan)
  exact ⟨congrArg Prod.fst hresult, congrArg (·.2.sequence? 0) hresult, congrArg (·.2.world) hresult⟩

end Workspace

end Growable
