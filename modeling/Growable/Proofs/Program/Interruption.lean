import Growable.Probe
import Growable.Proofs.Program.Registers
import Growable.Proofs.Sequence.Trace

/-!
# Insertions that are interrupted in programs

Clones of some elements are put at a position of a sequence that has room for all of them, and the one
numbered `k` faults.  The `k` clones made before it stay where they are, and the elements behind the
position come back to them: `Workspace.insertion_interrupted` says exactly what is left, in the register
and in the world.

Where the clones come from makes no difference.  In particular they can be clones of the sequence's own
elements, wherever these lie: before the position, behind it, or on both sides of it
(`Edit.Inserts.own`).
-/

namespace Growable

open Act

variable {σ α : Type}

/-- The edit puts clones of some elements at a position of `s`, in order. -/
inductive Edit.Inserts (s : Sequence α) : Edit α → Nat → List α → Prop
  | copies (position count : Nat) (x : α) :
      Inserts s (.insertCopies position count x) position (List.replicate count x)
  | all (position : Nat) (xs : List α) : Inserts s (.insertAll position xs) position xs
  /-- The elements of a span, as they are before the insertion. -/
  | own (position : Nat) {span : Span} {start stop : Nat}
      (hspan : span.within s.len = .ok (start, stop)) :
      Inserts s (.insertOwn position span) position ((s.items.drop start).take (stop - start))

variable {E : Element σ α} {s : Sequence α} {e : Edit α} {position k : Nat} {sources made : List α}
  {x : α} {message : String} {code : σ}

/-- What `Sequence.insertMade_interrupted` says, for the edit. -/
theorem Edit.Inserts.perform_interrupted {w : World σ α} (h : e.Inserts s position sources)
    (hposition : position ≤ s.len) (hroom : s.len + sources.length ≤ s.capacity)
    (hmax : s.len + sources.length ≤ s.maxSize E)
    (hbreaks : E.ClonesUpTo sources w.code k made x message code) :
    e.perform E (s, w) = .faulted (.raised message) (s.opened position made,
      w.after (List.zipWith .cloned (sources.take k) made ++ [.cloneFaulted x]) code) := by
  cases h with
  | copies => exact bind_of_faulted (Sequence.insertCopies_interrupted hposition hroom hmax hbreaks)
  | all => exact bind_of_faulted (Sequence.insertAll_interrupted hposition hroom hmax hbreaks)
  | own _ hspan =>
      exact bind_of_faulted (Sequence.insertOwn_interrupted hspan hposition hroom hmax hbreaks)

namespace Workspace

variable {ws : Workspace σ α} {a : Nat}

/-- **What an insertion in place leaves when a clone faults.**  The sequence in register `a` has room for
clones of all `sources` at a position.  If the clone numbered `k` faults, the fault goes on, and the
sequence is as before but for the `k` clones made before, which stand at the position.  Its region and its
handle, the allocators and all other registers are as before; the clones and the fault are all that
happened. -/
theorem insertion_interrupted (hs : ws.sequence? a = some s) (he : e.Inserts s position sources)
    (hposition : position ≤ s.len) (hroom : s.len + sources.length ≤ s.capacity)
    (hmax : s.len + sources.length ≤ s.maxSize E)
    (hbreaks : E.ClonesUpTo sources ws.world.code k made x message code) :
    let t : Sequence α := { s with items := s.items.take position ++ made ++ s.items.drop position }
    let events := List.zipWith .cloned (sources.take k) made ++ [.cloneFaulted x]
    ws.run E (.edit a e) = (.faulted (.raised message),
      { ws.put a (some (.elements t)) with world := ws.world.after events code }) ∧ t.len = s.len + k := by
  intro t events
  have hperform : e.perform E (s, ws.world) = .faulted (.raised message) (t, ws.world.after events code) :=
    he.perform_interrupted hposition hroom hmax hbreaks
  constructor
  · simp only [run, perform, withSequence_of_some hs, hperform]
    rfl
  · rw [← hbreaks.length_made]
    exact s.len_opened position made

/-- All elements of a sequence are to be put between the first one and the others, and the budget is spent
after one clone. -/
theorem insertion_interrupted_across :
    let ws := (runAll Probe.element (initial 1 [.unlimited] none)
      [.create 0 (.withCapacity 8) (Handle.of ⟨0, .shared⟩), .edit 0 (.extendAll [.of 1, .of 2, .of 3]),
        .setCode (some 1)]).2
    let result := ws.run Probe.element (.edit 0 (.insertOwn 1 ⟨.unbounded, .unbounded⟩))
    result.1 = .faulted (.raised "probe c2") ∧
      result.2.sequence? 0
        = some ⟨⟨8, some 0⟩, [.of 1, .of 1, .of 2, .of 3], Handle.of ⟨0, .shared⟩⟩ := by
  intro ws result
  have hbreaks : Probe.element.ClonesUpTo [.of 1, .of 2, .of 3] (some 1) 1 [.of 1] (.of 2) "probe c2"
      (some 0) := ⟨rfl, some 0, .cons rfl (.nil _), rfl⟩
  have hs : ws.sequence? 0 = some ⟨⟨8, some 0⟩, [.of 1, .of 2, .of 3], Handle.of ⟨0, .shared⟩⟩ := rfl
  have hspan : Span.within ⟨.unbounded, .unbounded⟩ 3 = .ok (0, 3) := rfl
  obtain ⟨hresult, _⟩ := insertion_interrupted (E := Probe.element) hs (.own 1 hspan) (by decide)
    (by decide) (by decide) hbreaks
  exact ⟨congrArg Prod.fst hresult, congrArg (·.2.sequence? 0) hresult⟩

end Workspace

end Growable
