import Growable.Proofs.BitSequence.Evolution
import Growable.Proofs.Program.Custody
import Growable.Proofs.Sequence.Unwinding

/-!
# Commands that construct

A command that constructs elements beside the contents that are there (`Command.Builds`) is all or
nothing: when a closure, a clone or a default element faults in it, the fault goes on, and all registers
are as they were, and the events since the beginning of the command are `Undone`.

* `Edit.perform_reverting`, `Recipe.create_undoing` — operations on a sequence, and new sequences;
* `Workspace.perform_reverts` — a command;
* `Workspace.failure_reverts` — a command after any program.
-/

namespace Growable

open Act

variable {σ α β : Type} {E : Element σ α}

/-! ## Operations -/

/-- The operation makes all of its elements before it touches the contents of the sequence. -/
def Edit.Builds (s : Sequence α) : Edit α → Prop
  | pushBy _ => True
  | insertBy _ _ => True
  | resize _ _ => True
  | resizeDefault _ => True
  | resizeBy _ _ => True
  | insertCopies _ count _ => s.capacity < s.len + count
  | insertAll _ xs => s.capacity < s.len + xs.length
  | insertOwn _ span => ∀ start stop, span.within s.len = .ok (start, stop) →
      s.capacity < s.len + (stop - start)
  | extendAll xs => s.capacity < s.len + xs.length
  | assignCopies count _ => s.capacity < count
  | assignAll xs => s.capacity < xs.length
  | _ => False

/-- What is answered makes no difference. -/
theorem answer_reverting {act : SequenceAct σ α Unit} {s : Sequence α} {w : World σ α}
    (h : (act (s, w)).Meets (.reverting s w)) :
    ((do act; return .nothing : SequenceAct σ α (Answer α)) (s, w)).Meets (.reverting s w) :=
  reverting_bind h fun _ u => World.Calm.refl u.2

/-- An operation that builds a new block leaves everything as it was if it does not succeed. -/
theorem Edit.perform_reverting {s : Sequence α} {w : World σ α} (e : Edit α)
    (hlen : s.len ≤ s.capacity) (h : e.Builds s) :
    (e.perform E (s, w)).Meets (.reverting s w) := by
  cases e with
  | pushBy maker => exact answer_reverting (Sequence.pushBy_reverting (maker.makes_call 0))
  | insertBy position maker =>
      exact answer_reverting (Sequence.insertBy_reverting position (maker.makes_call 0))
  | resize n x => exact answer_reverting (Sequence.resize_reverting n x)
  | resizeDefault n =>
      exact answer_reverting (Sequence.resizeMade_reverting n fun _ => E.makes_default)
  | resizeBy n maker => exact answer_reverting (Sequence.resizeMade_reverting n maker.makes_call)
  | insertCopies position count x =>
      exact answer_reverting (Sequence.insertCopies_reverting position x h)
  | insertAll position xs => exact answer_reverting (Sequence.insertAll_reverting position h)
  | insertOwn position span => exact answer_reverting (Sequence.insertOwn_reverting position h)
  | extendAll xs => exact answer_reverting (Sequence.insertAll_reverting s.len h)
  | assignCopies count x => exact answer_reverting (Sequence.assignCopies_reverting x hlen h)
  | assignAll xs => exact answer_reverting (Sequence.assignAll_reverting hlen h)
  | _ => exact h.elim

/-- The sequence is created from clones. -/
def Recipe.Builds : Recipe α → Prop
  | replicate _ _ => True
  | ofList _ => True
  | _ => False

/-- A recipe that builds a sequence leaves nothing behind if it does not succeed. -/
theorem Recipe.create_undoing (recipe : Recipe α) (h : recipe.Builds) (handle : Handle)
    (w : World σ α) : (recipe.create E handle w).Meets (.undoing w) := by
  cases recipe with
  | replicate count x => exact bind_meets.mpr (Sequence.replicate_undoing count x handle w)
  | ofList xs => exact bind_meets.mpr (Sequence.ofList_undoing xs handle w)
  | _ => exact h.elim

/-- Disposing of a container makes nothing. -/
theorem Container.dispose_calm (c : Container α) (w : World σ α) :
    w.Calm (c.dispose E w).state := by
  apply Outcome.meets_always.mp
  cases c with
  | elements s => exact Sequence.dispose_calm true s w
  | bits s =>
      exact World.calm_of_keeps
        (fun _ => BitSequence.keeps_dispose (Event.isFailure_of_returning _) (s := s) rfl) w

/-! ## Commands -/

/-- The command constructs elements, and makes all of them before it touches any contents. -/
def Command.Builds (ws : Workspace σ α) : Command σ α → Prop
  | create _ recipe _ => recipe.Builds
  | edit a e => ∃ s, ws.container? a = some (.elements s) ∧ e.Builds s
  | copy a _ => ∃ s, ws.container? a = some (.elements s)
  | copyDemanded a _ => ∃ s, ws.container? a = some (.elements s)
  | copyFrom a b => ∃ s t, ws.pair? a b = some (.elements s, .elements t) ∧ s.handle.Foreign t.handle
  | _ => False

namespace Workspace

variable {ws : Workspace σ α} {a : Nat}

/-- No making of an element failed, or a fault is raised, the registers are as they were, and everything
else was undone. -/
inductive Reverts (ws : Workspace σ α) :
    Response α × Option (Container α) × Workspace σ α → Prop
  | calm {result : Response α × Option (Container α) × Workspace σ α}
      (h : ws.world.Calm result.2.2.world) : Reverts ws result
  | undid {message : String} {ws' : Workspace σ α} (hregisters : ws'.registers = ws.registers)
      (h : ws.world.Undid ws'.world) : Reverts ws (.faulted (.raised message), none, ws')

/-- An act that undoes itself is stored with nothing left of its failure. -/
theorem store_reverts {act : Act (World σ α) (Option (Container α))}
    (h : (act ws.world).Meets (.undoing ws.world)) : ws.Reverts (ws.store a act) := by
  have hstores := store_spec (a := a) h
  generalize ws.store a act = result at hstores
  cases hstores with
  | vacant _ => exact .calm (.refl _)
  | stored _ hc => exact .calm hc
  | invalid _ hnone => exact .calm hnone
  | refused _ he => exact .calm he
  | faulted _ hf =>
      rcases hf with hcalm | ⟨⟨message, rfl⟩, hundid⟩
      · exact .calm hcalm
      · exact .undid rfl hundid

/-- An act that reverts leaves the workspace it found. -/
theorem withSequence_reverts {act : SequenceAct σ α (Answer α)} {s : Sequence α}
    (hc : ws.container? a = some (.elements s))
    (h : (act (s, ws.world)).Meets (.reverting s ws.world)) :
    ws.Reverts (perform.keep (ws.withSequence a act)) := by
  rw [withSequence_of_some (sequence?_of_elements hc)]
  cases ho : act (s, ws.world) with
  | done answer u =>
      rw [ho] at h
      exact .calm h
  | refused e u =>
      rw [ho] at h
      exact .calm h
  | faulted f u =>
      rw [ho] at h
      rcases h with hcalm | ⟨⟨message, rfl⟩, hsame, hundid⟩
      · exact .calm hcalm
      · have hregisters : (ws.put a (some (.elements u.1))).registers = ws.registers :=
          congrArg Workspace.registers (hsame ▸ put_same hc)
        exact .undid hregisters hundid

/-- **Step.**  A command that constructs elements leaves nothing behind when making one of them fails. -/
theorem perform_reverts (command : Command σ α) (hs : Sound E 0 ws) (h : command.Builds ws) :
    ws.Reverts (ws.perform E command) := by
  cases command with
  | create a recipe handle =>
      exact store_reverts (bind_meets.mpr (recipe.create_undoing h handle ws.world))
  | edit a e =>
      obtain ⟨s, hc, h⟩ := h
      exact withSequence_reverts hc (e.perform_reverting (hs.valid a _ hc).len_le h)
  | copy a b =>
      obtain ⟨s, hc⟩ := h
      simp only [perform, hc, Container.copy]
      apply store_reverts
      exact bind_meets.mpr (bind_meets.mpr (Sequence.copy_undoing s ws.world))
  | copyDemanded a b =>
      obtain ⟨s, hc⟩ := h
      simp only [perform, hc, Container.copyDemanded]
      apply store_reverts
      exact bind_meets.mpr (bind_meets.mpr (Sequence.copyDemanded_undoing s ws.world))
  | copyFrom a b =>
      obtain ⟨s, t, hpair, hforeign⟩ := h
      obtain ⟨_, hc, _⟩ := pair?_of_some hpair
      simp only [perform, hpair]
      exact withSequence_reverts hc (answer_reverting (Sequence.copyFrom_reverting hforeign))
  | _ => exact h.elim

/-- A container that is replaced is disposed of without making anything. -/
theorem Reverts.run {command : Command σ α} (h : ws.Reverts (ws.perform E command)) :
    ws.Reverts ((ws.run E command).1, none, (ws.run E command).2) := by
  unfold Workspace.run
  generalize ws.perform E command = result at h
  cases h with
  | @calm result h =>
      obtain ⟨response, replaced, ws'⟩ := result
      cases replaced with
      | none => exact .calm h
      | some c => exact .calm (h.trans (c.dispose_calm ws'.world))
  | undid hregisters h => exact .undid hregisters h

/-- **A failed construction leaves nothing behind.**  If a command that constructs elements runs after any
program, and a closure, a clone or a default element faults in it, then the fault goes on; all registers
are as they were; and the events of the command are `Undone`: every element made is dropped once, in the
order in which they were made, a block that was granted went back, and no other element was touched. -/
theorem failure_reverts (E : Element σ α) (registers : Nat) (accounts : List Account) (code : σ)
    (commands : List (Command σ α)) (command : Command σ α) :
    let ws := (runAll E (initial registers accounts code) commands).2
    let result := ws.run E command
    command.Builds ws → ∃ es, result.2.world.trace.toList = ws.world.trace.toList ++ es ∧
      ((∃ e ∈ es, e.isFailure = true) →
        (∃ message, result.1 = .faulted (.raised message)) ∧ result.2.registers = ws.registers ∧
          Undone es) := by
  intro ws result hbuilds
  have hs : Sound E 0 ws := runAll_sound commands (sound_initial registers accounts code)
  have hreverts : ws.Reverts (result.1, none, result.2) := (perform_reverts command hs hbuilds).run
  generalize result = r at hreverts
  obtain ⟨response, ws'⟩ := r
  cases hreverts with
  | calm h =>
      obtain ⟨es, hes, hcalm⟩ := h
      refine ⟨es, hes, fun hfailure => ?_⟩
      obtain ⟨e, he, hfails⟩ := hfailure
      cases hfails.symm.trans (hcalm e he)
  | @undid message _ hregisters h =>
      obtain ⟨es, hes, hundone⟩ := h
      exact ⟨es, hes, fun _ => ⟨⟨message, rfl⟩, hregisters, hundone⟩⟩

/-- Two numbers are to become five, and the second call of the closure that makes more of them faults. -/
theorem failure_reverts_resized :
    let E : Element Unit Nat := .plain ⟨4, 4⟩ 0
    let maker : Maker Nat := ⟨fun k => if k = 0 then .ok 7 else .error "no more"⟩
    let commands : List (Command Unit Nat) := [.create 0 (.ofList [1, 2]) (Handle.of ⟨0, .shared⟩)]
    let command : Command Unit Nat := .edit 0 (.resizeBy 5 maker)
    let ws := (runAll E (initial 1 [.unlimited] ()) commands).2
    let result := ws.run E command
    command.Builds ws ∧
      result.2.world.trace.toList = ws.world.trace.toList ++
        [.granted 0 1 20, .called, .received 7, .callFaulted, .dropped 7 false, .returned 0 1 20] ∧
      ∃ es, result.2.world.trace.toList = ws.world.trace.toList ++ es ∧
        ((∃ e ∈ es, e.isFailure = true) →
          (∃ message, result.1 = .faulted (.raised message)) ∧ result.2.registers = ws.registers ∧
            Undone es) := by
  exact ⟨⟨_, rfl, trivial⟩, rfl, failure_reverts _ 1 _ () _ _ ⟨_, rfl, trivial⟩⟩

end Workspace

end Growable
