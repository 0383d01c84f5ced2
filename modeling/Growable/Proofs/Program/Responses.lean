import Growable.Proofs.Handover
import Growable.Proofs.Program.Registers

/-!
# How a workspace responds to an operation on a container

A workspace performs an operation on the container in a register, and its response is how the operation ended
(`Workspace.run_edit`, `Workspace.run_editBits`).  Where the operation leaves the container as it is, it leaves all
registers as they are (`Workspace.run_edit_still`, `Workspace.run_editBits_still`).  Where it faults only with the
drops that it ends in, it leaves the same behind whether one of them faults or not
(`Workspace.run_edit_dropping`), and the response shows whether one did (`Response.faulted_dropping_iff`).
-/

namespace Growable

variable {σ α S : Type} {E : Element σ α}

/-- The response to an operation that comes to an answer unless a drop faulted. -/
def Response.dropping (answer : Answer α) (fault? : Option String) : Response α :=
  match fault? with
  | none => .answer answer
  | some message => .faulted (.raised message)

theorem Response.ofDrops_eq (fault? : Option String) :
    (Response.ofDrops fault? : Response α) = .dropping .nothing fault? := by
  cases fault? <;> rfl

/-- An operation that faults only with drops does so exactly if the drop of some element faults. -/
theorem Response.faulted_dropping_iff {answer : Answer α} {xs : List α} {code : σ} :
    (∃ f, Response.dropping answer (E.dropFault? xs code) = .faulted f) ↔ E.SomeDropFaults xs code := by
  rw [← Element.isSome_dropFault?]
  cases E.dropFault? xs code with
  | none =>
      refine iff_of_false ?_ Bool.false_ne_true
      intro h
      obtain ⟨f, hf⟩ := h
      cases hf
  | some message => exact iff_of_true ⟨.raised message, rfl⟩ rfl

/-- Whatever is answered, an act that faults only with drops has a response that shows whether one did. -/
theorem Outcome.Meets.dropping {act : Act S Unit} {s : S} {fault? : Option String} {P : S → Prop}
    (h : (act s).Meets (.raising fault? P)) (answer : Answer α) :
    let o := (do act; return answer : Act S (Answer α)) s
    Response.ofOutcome o = .dropping answer fault? ∧ P o.state := by
  change Response.ofOutcome (act.bind (fun _ => Act.pure answer) s) = _ ∧
    P (act.bind (fun _ => Act.pure answer) s).state
  unfold Act.bind
  cases hact : act s with
  | done b t =>
      rw [hact] at h
      obtain ⟨rfl, hP⟩ := h
      exact ⟨rfl, hP⟩
  | refused e t =>
      rw [hact] at h
      exact h.elim
  | faulted f t =>
      rw [hact] at h
      obtain ⟨message, rfl, rfl, hP⟩ := h
      exact ⟨rfl, hP⟩

/-- An act answers if it is done; what it leaves if it is not, `D` says. -/
theorem Outcome.Meets.answered_unless {act : Act S Unit} {s : S} {P D : S → Prop}
    (h : (act s).Meets ⟨fun _ => P, fun _ => D, fun _ => D⟩) :
    let o := (do act; return .nothing : Act S (Answer α)) s
    D o.state ∨ Response.ofOutcome o = .answer .nothing ∧ P o.state := by
  intro o
  cases hact : act s with
  | done b t =>
      have ho : o = .done .nothing t := Act.bind_of_done hact
      rw [hact] at h
      rw [ho]
      exact .inr ⟨rfl, h⟩
  | refused e t =>
      have ho : o = .refused e t := Act.bind_of_refused hact
      rw [hact] at h
      rw [ho]
      exact .inl h
  | faulted f t =>
      have ho : o = .faulted f t := Act.bind_of_faulted hact
      rw [hact] at h
      rw [ho]
      exact .inl h

namespace Workspace

variable {ws : Workspace σ α} {a : Nat} {s t : Sequence α} {e : Edit α} {act : SequenceAct σ α Unit}

/-- The workspace runs an operation on the sequence in its register. -/
theorem run_edit (hs : ws.sequence? a = some s) :
    let o := e.perform E (s, ws.world)
    ws.run E (.edit a e)
      = (.ofOutcome o, { ws.put a (some (.elements o.state.1)) with world := o.state.2 }) := by
  simp only [run, perform, withSequence_of_some hs]
  rfl

/-- The workspace runs an operation on the bit sequence in its register. -/
theorem run_editBits {s : BitSequence} {e : BitEdit} (hs : ws.bitSequence? a = some s) :
    let o := e.perform (s, ws.world)
    ws.run E (.editBits a e)
      = (.ofOutcome o, { ws.put a (some (.bits o.state.1)) with world := o.state.2 }) := by
  simp only [run, perform, withBits_of_some hs]
  rfl

/-- What leaves the sequence as it is leaves all registers as they are. -/
theorem run_edit_still {o : Outcome (Sequence α × World σ α) (Answer α)}
    (hs : ws.sequence? a = some s) (he : e.perform E (s, ws.world) = o) (hstill : o.state.1 = s) :
    ws.run E (.edit a e) = (.ofOutcome o, { ws with world := o.state.2 }) := by
  rw [run_edit hs, he, hstill, put_same (container?_of_sequence? hs)]

/-- An operation that leaves the bit sequence as it was changes at most the world. -/
theorem run_editBits_still {s : BitSequence} {e : BitEdit} {o : Outcome (BitSequence × World σ α) (Answer α)}
    (hs : ws.bitSequence? a = some s) (he : e.perform (s, ws.world) = o) (hstill : o.state.1 = s) :
    ws.run E (.editBits a e) = (.ofOutcome o, { ws with world := o.state.2 }) := by
  rw [run_editBits hs, he, hstill, put_same (container?_of_bitSequence? hs)]

/-- One that is refused with nothing done leaves the workspace. -/
theorem run_edit_refused {error : SequenceError} (hs : ws.sequence? a = some s)
    (he : e.perform E (s, ws.world) = .refused error (s, ws.world)) :
    ws.run E (.edit a e) = (.refused error, ws) := run_edit_still hs he rfl

section Bits

variable {s t : BitSequence} {e : BitEdit}

/-- An operation on bits that does not touch the world. -/
theorem run_editBits_done {answer : Answer α} (hs : ws.bitSequence? a = some s)
    (he : e.perform (s, ws.world) = .done answer (t, ws.world)) :
    ws.run E (.editBits a e) = (.answer answer, ws.put a (some (.bits t))) := by
  rw [run_editBits hs, he]
  rfl

/-- One that answers with nothing done leaves the workspace. -/
theorem run_editBits_answered {answer : Answer α} (hs : ws.bitSequence? a = some s)
    (he : e.perform (s, ws.world) = .done answer (s, ws.world)) :
    ws.run E (.editBits a e) = (.answer answer, ws) := run_editBits_still hs he rfl

/-- One that is refused with nothing done leaves the workspace. -/
theorem run_editBits_refused {error : SequenceError} (hs : ws.bitSequence? a = some s)
    (he : e.perform (s, ws.world) = .refused error (s, ws.world)) :
    ws.run E (.editBits a e) = (.refused error, ws) := run_editBits_still hs he rfl

end Bits

/-- What is so of every state that an operation ends in, with a fault or not, is so of the workspace. -/
theorem run_edit_dropping {fault? : Option String} {P : Sequence α × World σ α → Prop}
    (hperform : e.perform E = (do act; return .nothing)) (hs : ws.sequence? a = some s)
    (h : (act (s, ws.world)).Meets (.raising fault? P)) :
    ∃ u, P u ∧ ws.run E (.edit a e)
      = (.dropping .nothing fault?, { ws.put a (some (.elements u.1)) with world := u.2 }) := by
  obtain ⟨hresponse, hP⟩ := h.dropping .nothing
  refine ⟨_, hP, ?_⟩
  rw [run_edit hs, hperform, hresponse]

/-- The same, where the state is known. -/
theorem run_edit_raising {fault? : Option String} {w : World σ α}
    (hperform : e.perform E = (do act; return .nothing)) (hs : ws.sequence? a = some s)
    (h : (act (s, ws.world)).Meets (.raising fault? (· = (t, w)))) :
    ws.run E (.edit a e)
      = (.dropping .nothing fault?, { ws.put a (some (.elements t)) with world := w }) := by
  obtain ⟨u, rfl, hresult⟩ := run_edit_dropping hperform hs h
  exact hresult

end Workspace

end Growable
