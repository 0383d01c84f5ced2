import Growable.Probe
import Growable.Proofs.Program.Copying
import Growable.Proofs.Program.Responses
import Growable.Proofs.Sequence.Replacement

/-!
# Replacements in programs

A sequence is done with its old contents when others take their place, or when it is used up itself
(`Command.Replaces`).  New contents are complete before the first of the old elements is dropped, so that
nothing is lost if a drop faults: `Workspace.replacement_completes`.
-/

namespace Growable

open Act World

variable {σ α : Type} {E : Element σ α}

/-- The edit replaces the contents by clones of `xs`. -/
inductive Edit.Assigns : Edit α → List α → Prop
  | copies (count : Nat) (x : α) : Assigns (.assignCopies count x) (List.replicate count x)
  | all (xs : List α) : Assigns (.assignAll xs) xs

/-- However the clones are asked for, they are assigned one by one. -/
theorem Edit.Assigns.perform_eq {e : Edit α} {xs : List α} (h : e.Assigns xs) :
    ∃ source : Nat → Act (World σ α) α, Reads xs source ∧
      e.perform E = (do Sequence.assignMade E xs.length source; return .nothing) := by
  cases h with
  | copies count x =>
      refine ⟨fun _ => pure x, reads_replicate count x, ?_⟩
      rw [List.length_replicate]
      rfl
  | all xs => exact ⟨_, reads_ofOption xs, rfl⟩

/-- What comes of a replacement, apart from the end of the old elements. -/
structure Replacement (σ α : Type) where
  /-- What takes the place of the old sequence, if anything does. -/
  new : Option (Sequence α)
  /-- What happens before the first of the old elements is dropped. -/
  events : List (Event α)
  /-- The state of the element code by then. -/
  code : σ
  /-- The old elements that are still there by then. -/
  olds : List α
  answer : Answer α

/-- The command replaces the sequence `s` in register `a`; new contents, if there are any, can be put
together without a failure. -/
inductive Command.Replaces (E : Element σ α) (ws : Workspace σ α) (a : Nat) (s : Sequence α) :
    Command σ α → Replacement σ α → Prop
  /-- More elements are assigned than there is room for. -/
  | assigned {e : Edit α} {xs made : List α} {code : σ} (he : e.Assigns xs)
      (hfull : s.capacity < xs.length) (hmax : xs.length ≤ s.maxSize E)
      (hgranted : Region.Granted E.toShape s.handle.allocator xs.length ws.world)
      (hmade : E.Clones xs ws.world.code made code) :
      Replaces E ws a s (.edit a e)
        ⟨some { s with region := .fresh E.toShape xs.length ws.world, items := made },
          Sequence.building E s.handle.allocator xs made ws.world, code, s.items, .nothing⟩
  /-- The contents of another sequence are copied, the handle of which comes along, from an allocator whose
  blocks cannot pass. -/
  | copied {b : Nat} {t : Sequence α} {made : List α} {code : σ} (hne : a ≠ b)
      (ht : ws.sequence? b = some t) (hforeign : s.handle.Foreign t.handle)
      (hgranted : Region.Granted E.toShape t.handle.allocator t.len ws.world)
      (hmade : E.Clones t.items ws.world.code made code) :
      Replaces E ws a s (.copyFrom a b)
        ⟨some ⟨.fresh E.toShape t.len ws.world, made, t.handle⟩,
          Sequence.building E t.handle.allocator t.items made ws.world, code, s.items, .nothing⟩
  /-- The sequence is used up. -/
  | discarded : Replaces E ws a s (.discard a) ⟨none, [], ws.world.code, s.items, .nothing⟩
  /-- The sequence is taken apart, and some of its elements are handed out first. -/
  | drained (moves : List DrainMove) : Replaces E ws a s (.drain a moves)
      ⟨none, DrainMove.handing moves s.items, ws.world.code, DrainMove.left moves s.items,
        .drained ((Drain.of s).answers moves)⟩

namespace Workspace

variable {ws : Workspace σ α} {a : Nat} {s : Sequence α} {command : Command σ α} {r : Replacement σ α}

/-- A sequence is used up, by an act that faults only with drops, and its register is left empty. -/
theorem consume_dropping {act : Container α → Option (Act (World σ α) (Answer α))}
    {used : Act (World σ α) (Answer α)} {last : Act (World σ α) Unit} {answer : Answer α} {w : World σ α}
    {fault? : Option String} {P : World σ α → Prop} (hs : ws.sequence? a = some s)
    (hact : act (.elements s) = some used) (hused : used ws.world = (do last; return answer) w)
    (h : (last w).Meets (.raising fault? P)) :
    ∃ w', P w' ∧ ws.consume a act = (.dropping answer fault?, { ws.put a none with world := w' }) := by
  obtain ⟨hresponse, hP⟩ := h.dropping answer
  refine ⟨_, hP, ?_⟩
  rw [consume_of_some (container?_of_sequence? hs) hact, hused, hresponse]

/-- What is left of a sequence that is taken apart is disposed of in the end. -/
theorem drainAll_eq (moves : List DrainMove) (s : Sequence α) (w : World σ α) :
    drainAll E moves s w = (do
        Drain.dispose E false { Drain.of s with rest := DrainMove.left moves s.items }
        return .drained ((Drain.of s).answers moves) : Act (World σ α) (Answer α))
      (w.after (DrainMove.handing moves s.items) w.code) := by
  have hmoved : owning (Drain.of s) (fun unwinding d => d.dispose E unwinding)
      (moves.mapM DrainMove.perform) w
        = .done ({ Drain.of s with rest := DrainMove.left moves s.items }, (Drain.of s).answers moves)
          (w.after (DrainMove.handing moves s.items) w.code) := by
    rw [owning, Drain.performAll_eq]
    rfl
  rw [drainAll, bind_of_done hmoved]

/-- The old contents are disposed of once everything else is done. -/
theorem run_replaces (hs : ws.sequence? a = some s) (hvalid : s.Valid E) (hfits : E.toShape.Fits)
    (hr : command.Replaces E ws a s r) :
    ∃ w', ws.world.Passes (r.events ++ (E.dropEvents r.olds r.code
        ++ s.region.returning E.toShape s.handle.allocator)) (E.afterDrops r.olds r.code) w' ∧
      ws.run E command = (.dropping r.answer (E.dropFault? r.olds r.code),
        { ws.put a (r.new.map .elements) with world := w' }) := by
  cases hr with
  | assigned he hfull hmax hgranted hmade =>
      obtain ⟨source, hreads, hperform⟩ := he.perform_eq
      obtain ⟨⟨_, w'⟩, ⟨rfl, hw'⟩, hresult⟩ := run_edit_dropping hperform hs
        (Sequence.assignMade_replaces hvalid hfits hreads hfull hmax hgranted hmade)
      exact ⟨w', hw', hresult⟩
  | copied hne ht hforeign hgranted hmade =>
      obtain ⟨hresponse, hu, hw'⟩ :=
        (Sequence.copyFrom_replaced hvalid hfits hforeign hgranted hmade).dropping (.nothing : Answer α)
      refine ⟨_, hw', ?_⟩
      rw [run_copyFrom_elements hne hs ht, hresponse, hu]
      rfl
  | discarded =>
      exact consume_dropping hs rfl rfl (Sequence.dispose_raising hvalid hfits ws.world)
  | drained moves =>
      have hdisposed := Drain.dispose_raising hvalid hfits moves
        (ws.world.after (DrainMove.handing moves s.items) ws.world.code)
      have hall := hdisposed.raising_imp fun _ hw' => (passes_after ws.world _ _).trans hw'
      exact consume_dropping hs rfl (drainAll_eq moves s ws.world) hall

/-- **Replacements are complete, even if they fault.**  After every program, the sequence in register `a` is
replaced by new contents, or used up.  The old elements that are still there are dropped front to back, each
of them once, and then the old region is returned to the allocator of the old handle, if it occupies memory.
The register holds the new sequence then, whole, in its own region and under its own handle, or nothing.  A
fault goes on exactly if the drop of some old element faults. -/
theorem replacement_completes (E : Element σ α) (hfits : E.toShape.Fits) (registers : Nat)
    (accounts : List Account) (code : σ) (commands : List (Command σ α)) {a : Nat} {s : Sequence α}
    {command : Command σ α} {r : Replacement σ α} :
    let ws := (runAll E (initial registers accounts code) commands).2
    let drops := E.dropEvents r.olds r.code
    let release := s.region.returning E.toShape s.handle.allocator
    let result := ws.run E command
    ws.sequence? a = some s → command.Replaces E ws a s r →
      result.1 = .dropping r.answer (E.dropFault? r.olds r.code) ∧
        (∃ w', result.2 = { ws.put a (r.new.map .elements) with world := w' } ∧
          ws.world.Passes (r.events ++ (drops ++ release)) (E.afterDrops r.olds r.code) w') ∧
        drops.map Event.dropped? = r.olds.map some ∧
        (release = [] ↔ E.bytes * s.capacity = 0) ∧
        ((∃ f, result.1 = .faulted f) ↔ E.SomeDropFaults r.olds r.code) := by
  intro ws drops release result hs hr
  have hsound : Sound E 0 ws := runAll_sound commands (sound_initial registers accounts code)
  obtain ⟨hvalid, _⟩ := hsound.parts (container?_of_sequence? hs)
  obtain ⟨w', hw', hresult⟩ := run_replaces hs hvalid hfits hr
  have hresponse : result.1 = .dropping r.answer (E.dropFault? r.olds r.code) :=
    congrArg Prod.fst hresult
  refine ⟨hresponse, ⟨w', congrArg Prod.snd hresult, hw'⟩, E.dropped?_dropEvents r.olds r.code, ?_, ?_⟩
  · exact Region.returning_eq_nil_iff.trans hvalid.region.block_eq_none_iff
  · rw [hresponse]
    exact Response.faulted_dropping_iff

/-- Five probes take the place of three, of which the first and the last fault when they are dropped. -/
theorem replacement_completes_assigned :
    let news : List Probe := [.of 4, .of 5, .of 6, .of 7, .of 8]
    let ws := (runAll Probe.element (initial 1 [.unlimited] none)
      [.create 0 .empty (Handle.of ⟨0, .shared⟩), .edit 0 (.push ⟨1, false, true⟩),
        .edit 0 (.push (.of 2)), .edit 0 (.push ⟨3, false, true⟩)]).2
    let result := ws.run Probe.element (.edit 0 (.assignAll news))
    result.1 = .faulted (.raised "probe d1") ∧
      result.2.sequence? 0 = some ⟨⟨5, some 1⟩, news, Handle.of ⟨0, .shared⟩⟩ ∧
      ws.world.Emits (.granted 0 1 40 :: news.map (fun x => .cloned x x) ++
        [.dropped ⟨1, false, true⟩ true, .dropped (.of 2) false, .dropped ⟨3, false, true⟩ false,
          .returned 0 0 32]) result.2.world := by
  intro news ws result
  have hfits : Probe.element.toShape.Fits := by
    unfold Shape.Fits
    decide
  have hs : ws.sequence? 0 = some ⟨⟨4, some 0⟩, [⟨1, false, true⟩, .of 2, ⟨3, false, true⟩],
      Handle.of ⟨0, .shared⟩⟩ := rfl
  have hgranted : Region.Granted Probe.element.toShape ⟨0, .shared⟩ news.length ws.world :=
    ⟨rfl, fun _ => ⟨_, rfl, rfl⟩⟩
  have hmade : Probe.element.Clones news ws.world.code news none :=
    .cons rfl (.cons rfl (.cons rfl (.cons rfl (.cons rfl (.nil none)))))
  have hr := Command.Replaces.assigned (a := 0) (s := ⟨⟨4, some 0⟩, [⟨1, false, true⟩, .of 2, ⟨3, false, true⟩],
    Handle.of ⟨0, .shared⟩⟩) (.all news) (by decide) (by decide) hgranted hmade
  obtain ⟨hresponse, ⟨w', hresult, hpasses⟩, _⟩ := replacement_completes Probe.element hfits 1 [.unlimited]
    none [.create 0 .empty (Handle.of ⟨0, .shared⟩), .edit 0 (.push ⟨1, false, true⟩),
      .edit 0 (.push (.of 2)), .edit 0 (.push ⟨3, false, true⟩)] hs hr
  refine ⟨hresponse, congrArg (·.sequence? 0) hresult, ?_⟩
  rw [show result.2 = _ from hresult]
  exact hpasses.emits

end Workspace

end Growable
