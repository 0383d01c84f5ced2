import Growable.Probe
import Growable.Proofs.Program.Demand
import Growable.Proofs.Program.Limits

/-!
# Programs under one limit

Where all handles of a program admit the same number of bytes, it makes no difference under which of them
contents are moved, copied or shrunk: no container ever has more room than its handle admits
(`Workspace.Uniform`).  So whatever is done next is answered as it demands (`Workspace.answers_of_uniform`).

An element that was given to an operation is dropped when the operation comes to nothing, and what the drop
raises takes the place of the error (`Workspace.rejected_probe_faults`).
-/

namespace Growable

open Act

variable {σ α : Type} {E : Element σ α}

/-- A container never moves more bytes than it has. -/
theorem Container.movedBytes_le {c : Container α} (hc : c.Valid E) (h : Handle) :
    c.movedBytes E h ≤ c.bytes E := by
  unfold movedBytes
  split
  · exact Nat.le_refl _
  · exact contentBytes_le hc

namespace Workspace

variable {ws : Workspace σ α} {a limit : Nat} {s : Sequence α} {t : BitSequence}

/-- All handles have the same limit, and admit all the room that their containers have. -/
structure Uniform (E : Element σ α) (limit : Nat) (ws : Workspace σ α) : Prop where
  bounded : Bounded E Size.blockLimit (·.maxBytes = limit) ws
  admitted : ws.Admitted E

section Step

variable (hu : Uniform E limit ws)

include hu

/-- There is room for all elements, and the handle admits it. -/
theorem Uniform.sequence (hs : ws.sequence? a = some s) :
    s.len ≤ s.capacity ∧ s.capacity ≤ s.maxSize E :=
  have hc := container?_of_sequence? hs
  ⟨(hu.bounded.sound.valid a _ hc).len_le, hu.admitted a _ hc⟩

/-- A bit sequence under the one limit is within its capacity and its capacity within the limit. -/
theorem Uniform.bitSequence (ht : ws.bitSequence? a = some t) :
    t.len ≤ t.capacity ∧ t.capacity ≤ t.maxSize :=
  have hc := container?_of_bitSequence? ht
  ⟨(hu.bounded.sound.valid a _ hc).len_le, hu.admitted a _ hc⟩

/-- What one handle admits is admitted by all of them. -/
theorem Uniform.respects (command : Command σ α) : command.Respects E ws := by
  have hle : ∀ {a b : Nat} {c d : Container α}, ws.pair? a b = some (c, d) →
      c.bytes E ≤ d.handle.maxBytes ∧ d.bytes E ≤ c.handle.maxBytes ∧ d.Valid E := by
    intro a b c d hpair
    obtain ⟨_, hc, hd⟩ := pair?_of_some hpair
    have hsame : c.handle.maxBytes = d.handle.maxBytes :=
      (hu.bounded.handles a c hc).trans (hu.bounded.handles b d hd).symm
    exact ⟨(hu.admitted a c hc).capped.trans_eq hsame, (hu.admitted b d hd).capped.trans_eq hsame.symm,
      hu.bounded.sound.valid b d hd⟩
  cases command with
  | copyFrom a b => exact fun c d hpair _ _ => (hle hpair).1
  | moveFrom a b =>
      exact fun c d hpair => (Container.movedBytes_le (hle hpair).2.2 _).trans (hle hpair).2.1
  | create | createBits | edit | editBits | copy | copyDemanded | discard | drain | setPolicy | setCode =>
      trivial

/-- **Step.**  A command under the one limit keeps the workspace uniform. -/
theorem Uniform.run (command : Command σ α) (hcommand : ∀ h, command.handle? = some h → h.maxBytes = limit) :
    Uniform E limit (ws.run E command).2 where
  bounded := hu.bounded.run (fun h _ => h.maxBytes_le) command hcommand
  admitted := ((perform_admitted hu.bounded.sound hu.admitted command (hu.respects command)).run
    Event.sized_of_returning).holds

end Step

/-- **Run.**  A program whose handles all have the same limit leaves a uniform workspace. -/
theorem Uniform.runAll (hu : Uniform E limit ws) (commands : List (Command σ α))
    (hcommands : ∀ command ∈ commands, ∀ h, command.handle? = some h → h.maxBytes = limit) :
    Uniform E limit (ws.runAll E commands).2 := by
  induction commands generalizing ws with
  | nil => exact hu
  | cons command rest ih =>
      exact ih (hu.run command (hcommands command List.mem_cons_self))
        fun next hnext => hcommands next (List.mem_cons_of_mem _ hnext)

/-- An empty workspace is uniform. -/
theorem uniform_initial (registers : Nat) (accounts : List Account) (code : σ) :
    Uniform E limit (initial registers accounts code : Workspace σ α) :=
  ⟨bounded_initial registers accounts code, admitted_initial registers accounts code⟩

/-- Whatever is done next, as long as it does not consume an iterator or give up room, is answered as it
demands: an operation on a container, and the making of a container under a handle with the limit. -/
structure Answers (E : Element σ α) (limit : Nat) (ws : Workspace σ α) : Prop where
  elements : ∀ a s, ws.sequence? a = some s → ∀ e : Edit α, e.foreseen = true →
    (e.demands s).Answered (Sequence.storage E) e.given s ws.world (e.perform E (s, ws.world))
  bits : ∀ a t, ws.bitSequence? a = some t → ∀ e : BitEdit, e.foreseen = true →
    (e.demands t).Answered BitSequence.storage none t ws.world (e.perform (t, ws.world))
  created : ∀ (recipe : Recipe α) (h : Handle), recipe.foreseen = true → h.maxBytes = limit →
    (Sequence.storage E).Makes (.empty h) recipe.need id ws.world (recipe.create E h ws.world)
  createdBits : ∀ (recipe : Recipe Bool) (h : Handle), recipe.foreseen = true → h.maxBytes = limit →
    BitSequence.storage.Makes (.empty h) recipe.need id ws.world (recipe.createBits h ws.world)

/-- **Every demand is answered.**  After every program whose handles all have the same limit, whatever was
refused or faulted in it: bounds that are not valid are rejected first; a demand beyond the maximum size is
rejected for lack of capacity, without a request; what there is room for is done in place, without any
allocator; and everything else makes exactly one request of the bytes that the new slots take, if they take
any, before any code of elements or of closures runs. -/
theorem answers_of_uniform (E : Element σ α) (hshape : E.toShape.Lawful) (registers : Nat)
    (accounts : List Account) (code : σ) (limit : Nat) (commands : List (Command σ α))
    (hlimit : ∀ command ∈ commands, ∀ h, command.handle? = some h → h.maxBytes = limit) :
    Answers E limit (runAll E (initial registers accounts code) commands).2 := by
  have hu := (uniform_initial (E := E) registers accounts code).runAll commands hlimit
  constructor
  · intro a s hs e he
    obtain ⟨hlen, hfits⟩ := hu.sequence hs
    exact e.perform_answered hlen hfits he
  · intro a t ht e he
    obtain ⟨hlen, hfits⟩ := hu.bitSequence ht
    exact e.perform_answered hlen hfits he
  · exact fun recipe h hr _ => recipe.create_makes hshape.fits h hr
  · exact fun recipe h hr _ => recipe.createBits_makes h hr

/-- Two numbers under a handle that admits three of them, and no fourth. -/
theorem answers_of_uniform_full :
    let E : Element Unit Nat := .plain ⟨4, 4⟩ 0
    let handle : Handle := (Handle.of ⟨0, .numbered 0⟩).capped 12
    let commands : List (Command Unit Nat) := [.create 0 (.ofList [1]) handle, .edit 0 (.push 2)]
    let ws := (runAll E (initial 1 [.unlimited] ()) commands).2
    E.toShape.Lawful ∧ (∀ command ∈ commands, ∀ h, command.handle? = some h → h.maxBytes = 12) ∧
      (ws.sequence? 0).map (fun s => (s.items, s.capacity, s.maxSize E)) = some ([1, 2], 3, 3) ∧
      Answers E 12 ws := by
  intro E handle commands ws
  have hshape : E.toShape.Lawful := ⟨by decide, by decide⟩
  have hlimit : ∀ command ∈ commands, ∀ h, command.handle? = some h → h.maxBytes = 12 := by
    intro command hcommand h hh
    rcases List.mem_cons.mp hcommand with rfl | hcommand
    · cases hh
      rfl
    · obtain rfl := List.mem_singleton.mp hcommand
      cases hh
  exact ⟨hshape, hlimit, by decide +kernel, answers_of_uniform E hshape 1 [.unlimited] () 12 commands hlimit⟩

/-- A probe that faults when it is dropped is pushed onto a sequence that is as long as its handle admits.  No
allocator is asked, and what the drop raises takes the place of the error. -/
theorem rejected_probe_faults :
    let handle : Handle := (Handle.of ⟨0, .numbered 0⟩).capped 8
    let ws := (runAll Probe.element (initial 1 [.unlimited] none)
      [.create 0 (.ofList [.of 1]) handle]).2
    let probe : Probe := ⟨2, false, true⟩
    let pushed := ws.run Probe.element (.edit 0 (.push probe))
    (ws.sequence? 0).map (fun s => (s.len, s.maxSize Probe.element)) = some (1, 1) ∧
      pushed.1 = .faulted (.raised "probe d2") ∧
      pushed.2.world.trace.toList = ws.world.trace.toList ++ [.received probe, .dropped probe true] :=
  ⟨rfl, rfl, rfl⟩

end Workspace

end Growable
