import Growable.Proofs.Program.Replacement
import Growable.Proofs.Sequence.Draining

/-!
# Sequences that are taken apart in programs

A sequence that is taken apart from both ends, and discarded at any point: `Workspace.draining_takes_apart`
says what each move answers, and what happens to every element and to the region.
-/

namespace Growable

open Act

variable {σ α : Type} {E : Element σ α}

/-- An element is handed out or dropped, or a region is returned. -/
def Event.Parting : Event α → Prop
  | handed _ | dropped _ _ | returned _ _ _ => True
  | _ => False

/-- The events of drops are partings. -/
theorem Element.parting_of_mem_dropEvents {xs : List α} {code : σ} {e : Event α} (h : e ∈ E.dropEvents xs code) :
    e.Parting := by
  have hdropped : e.dropped? ∈ xs.map some := E.dropped?_dropEvents xs code ▸ List.mem_map_of_mem h
  obtain ⟨x, _, hx⟩ := List.mem_map.mp hdropped
  cases e <;> trivial

theorem Region.parting_of_mem_returning {shape : Shape} {allocator : Allocator} {r : Region} {e : Event α}
    (h : e ∈ r.returning shape allocator) : e.Parting := by
  unfold returning at h
  split at h
  · rw [List.mem_singleton.mp h]
    trivial
  · cases h

/-- What a drain answers to moves, as a list that is taken apart. -/
def Drain.views (answers : List (Option α × Drain α)) : List (Option α × List α) :=
  answers.map fun answer => (answer.1, answer.2.rest)

/-- The elements that were handed out, in the order of the moves. -/
def Drain.handedOut (answers : List (Option α × Drain α)) : List α := answers.flatMap (·.1.toList)

/-- What the moves come to by which the sequence `s` is taken apart; after them, `rest` is left. -/
structure Sequence.Drained (s : Sequence α) (moves : List DrainMove) (answers : List (Option α × Drain α))
    (rest : List α) : Prop where
  apart : TakenApart s.items moves (Drain.views answers)
  last : (stages s.items (Drain.views answers))[moves.length]? = some rest
  /-- At each point, the number of elements left is told, also as a hint. -/
  counted {k : Nat} {x : Option α} {d : Drain α} (hk : answers[k]? = some (x, d)) :
    (Drain.handedOut (answers.take (k + 1))).length + d.len = s.len ∧ d.sizeHint = (d.len, some d.len)
  /-- Each element is taken out of its own slot, in which it was until then. -/
  slots : ∃ states, (Slots.of s.capacity s.items).moveAll moves = some states ∧
    List.Forall₂ (fun state answer => state.1 = answer.1 ∧ state.2.Holds s.capacity answer.2.rest) states answers

namespace Drain

variable {d : Drain α} {moves : List DrainMove}

@[simp] theorem views_answers (moves : List DrainMove) (d : Drain α) :
    views (d.answers moves) = DrainMove.takesAll moves d.rest := by
  rw [views, answers, List.map_map]
  exact List.map_id _

/-- What a drain hands out is what the two ends give. -/
theorem handedOut_answers (moves : List DrainMove) (d : Drain α) :
    handedOut (d.answers moves) = (DrainMove.takesAll moves d.rest).flatMap (·.1.toList) := by
  rw [handedOut, answers, List.flatMap_map]

/-- The first answers are those to the first moves. -/
theorem take_answers (k : Nat) (moves : List DrainMove) (d : Drain α) :
    (d.answers moves).take k = d.answers (moves.take k) := by
  rw [answers, ← List.map_take, DrainMove.take_takesAll, answers]

/-- What is left after a move is what is left after the moves up to it. -/
theorem rest_of_answers {k : Nat} {x : Option α} {d' : Drain α} (hk : (d.answers moves)[k]? = some (x, d')) :
    d'.rest = DrainMove.left (moves.take (k + 1)) d.rest := by
  rw [answers, List.getElem?_map] at hk
  obtain ⟨taken, htaken, hanswer⟩ := Option.map_eq_some_iff.mp hk
  have hlt : k < moves.length := by
    rw [← DrainMove.length_takesAll moves d.rest]
    exact (List.getElem?_eq_some_iff.mp htaken).1
  have hstage := DrainMove.stages_takesAll hlt d.rest
  rw [stages, List.getElem?_cons_succ, List.getElem?_map, htaken] at hstage
  rw [← congrArg (·.2.rest) hanswer]
  exact Option.some.inj hstage

/-- The events by which elements are handed out are no others than these. -/
theorem handing_eq (moves : List DrainMove) (d : Drain α) :
    (DrainMove.handing moves d.rest : List (Event α)) = (handedOut (d.answers moves)).map .handed := by
  rw [DrainMove.handing, handedOut_answers, List.map_flatMap]

end Drain

/-- A sequence is taken apart by all moves, whatever they are. -/
theorem Sequence.drained {s : Sequence α} (hs : s.Valid E) (moves : List DrainMove) :
    s.Drained moves ((Drain.of s).answers moves) (DrainMove.left moves s.items) where
  apart := by
    rw [Drain.views_answers]
    exact DrainMove.takenApart_takesAll moves s.items
  last := by
    rw [Drain.views_answers]
    have hstages := DrainMove.stages_takesAll (Nat.le_refl moves.length) s.items
    rwa [List.take_length] at hstages
  counted {k x d} hk := by
    refine ⟨?_, rfl⟩
    rw [Drain.take_answers, Drain.handedOut_answers, Drain.len, Drain.rest_of_answers hk]
    exact DrainMove.length_takesAll_left _ s.items
  slots := by
    obtain ⟨states, hmoves, hstates⟩ := (Slots.holds_of hs.len_le).moveAll_eq moves
    exact ⟨states, hmoves, List.forall₂_map_right_iff.mpr hstates⟩

namespace Workspace

/-- **A sequence is taken apart from both ends, and nothing of it is lost.**  After every program, the sequence
in register `a` is taken apart by moves and then discarded.  Each move answers the element at its end of what is
left, if any; the others stay, and are counted.  After the last move, what is left is dropped front to back,
each element once, and the region is returned once, if it occupies memory, also if a drop faults.  Nothing else
happens: nothing is cloned, and no allocator is asked for anything. -/
theorem draining_takes_apart (E : Element σ α) (hfits : E.toShape.Fits) (registers : Nat)
    (accounts : List Account) (code : σ) (commands : List (Command σ α)) {a : Nat} {s : Sequence α}
    (moves : List DrainMove) :
    let ws := (runAll E (initial registers accounts code) commands).2
    ws.sequence? a = some s → ∃ answers rest w, s.Drained moves answers rest ∧
      let handed : List (Event α) := (Drain.handedOut answers).map .handed
      let drops := E.dropEvents rest ws.world.code
      let release := s.region.returning E.toShape s.handle.allocator
      let result := ws.run E (.drain a moves)
      (moves.mapM DrainMove.perform : Act (Drain α × World σ α) (List (Option α × Drain α)))
          (Drain.of s, ws.world)
        = .done answers ({ Drain.of s with rest }, ws.world.after handed ws.world.code) ∧
      result = (.dropping (.drained answers) (E.dropFault? rest ws.world.code),
        { ws.put a none with world := w }) ∧
      ws.world.Passes (handed ++ (drops ++ release)) (E.afterDrops rest ws.world.code) w ∧
      drops.map Event.dropped? = rest.map some ∧
      (∀ block, s.region.block = some block →
        release = [.returned s.handle.allocator.place block (E.bytes * s.capacity)]) ∧
      (release = [] ↔ E.bytes * s.capacity = 0) ∧
      (∀ event ∈ handed ++ (drops ++ release), event.Parting) ∧
      ((∃ f, result.1 = .faulted f) ↔ E.SomeDropFaults rest ws.world.code) := by
  intro ws hs
  have hsound : Sound E 0 ws := runAll_sound commands (sound_initial registers accounts code)
  obtain ⟨hvalid, _⟩ := hsound.parts (container?_of_sequence? hs)
  obtain ⟨w, hw, hresult⟩ := run_replaces hs hvalid hfits (.drained moves)
  refine ⟨(Drain.of s).answers moves, DrainMove.left moves s.items, w, Sequence.drained hvalid moves, ?_⟩
  intro handed drops release result
  have hhanded : DrainMove.handing moves s.items = handed := Drain.handing_eq moves (Drain.of s)
  have hdone := Drain.performAll_eq moves (Drain.of s) ws.world
  rw [show (Drain.of s).rest = s.items from rfl, hhanded] at hdone
  rw [hhanded] at hw
  refine ⟨hdone, hresult, hw, E.dropped?_dropEvents _ _, ?_, ?_, ?_, ?_⟩
  · intro block hblock
    simp only [release, Region.returning, hblock]
    rfl
  · exact Region.returning_eq_nil_iff.trans hvalid.region.block_eq_none_iff
  · intro event hevent
    rcases List.mem_append.mp hevent with hevent | hevent
    · obtain ⟨x, _, rfl⟩ := List.mem_map.mp hevent
      trivial
    · rcases List.mem_append.mp hevent with hevent | hevent
      · exact Element.parting_of_mem_dropEvents hevent
      · exact Region.parting_of_mem_returning hevent
  · rw [show result.1 = _ from congrArg Prod.fst hresult]
    exact Response.faulted_dropping_iff

/-- Of four probes, the outer two are handed out.  The drop of the second faults, and so the response; the third
is dropped, and the block comes back all the same. -/
theorem draining_takes_apart_faulting :
    let moves : List DrainMove := [.next, .look, .nextBack]
    let ws := (runAll Probe.element (initial 1 [.unlimited] none)
      [.create 0 .empty (Handle.of ⟨0, .shared⟩), .edit 0 (.push (.of 1)),
        .edit 0 (.push ⟨2, false, true⟩), .edit 0 (.push ⟨3, false, true⟩), .edit 0 (.push (.of 4))]).2
    let s : Sequence Probe := ⟨⟨4, some 0⟩, [.of 1, ⟨2, false, true⟩, ⟨3, false, true⟩, .of 4],
      Handle.of ⟨0, .shared⟩⟩
    let result := ws.run Probe.element (.drain 0 moves)
    Probe.element.toShape.Fits ∧ ws.sequence? 0 = some s ∧
      (∃ answers, s.Drained moves answers [⟨2, false, true⟩, ⟨3, false, true⟩] ∧
        Drain.handedOut answers = [.of 1, .of 4]) ∧
      result.1 = .faulted (.raised "probe d2") ∧ result.2.sequence? 0 = none ∧
      ws.world.Emits [.handed (.of 1), .handed (.of 4), .dropped ⟨2, false, true⟩ true,
        .dropped ⟨3, false, true⟩ false, .returned 0 0 32] result.2.world := by
  intro moves ws s result
  have hfits : Probe.element.toShape.Fits := by
    unfold Shape.Fits
    decide
  have hs : ws.sequence? 0 = some s := rfl
  obtain ⟨answers, rest, w, hdrained, hdone, hresult, hw, _⟩ := draining_takes_apart Probe.element hfits 1
    [.unlimited] none [.create 0 .empty (Handle.of ⟨0, .shared⟩), .edit 0 (.push (.of 1)),
      .edit 0 (.push ⟨2, false, true⟩), .edit 0 (.push ⟨3, false, true⟩), .edit 0 (.push (.of 4))] moves hs
  have hmoves : (moves.mapM DrainMove.perform : Act (Drain Probe × World _ Probe) _) (Drain.of s, ws.world)
      = .done [(some (.of 1), { Drain.of s with rest := [⟨2, false, true⟩, ⟨3, false, true⟩, .of 4] }),
          (none, { Drain.of s with rest := [⟨2, false, true⟩, ⟨3, false, true⟩, .of 4] }),
          (some (.of 4), { Drain.of s with rest := [⟨2, false, true⟩, ⟨3, false, true⟩] })]
        ({ Drain.of s with rest := [⟨2, false, true⟩, ⟨3, false, true⟩] },
          ws.world.after [.handed (.of 1), .handed (.of 4)] none) := rfl
  obtain ⟨hanswers, hstate⟩ := Outcome.done.inj (hdone.symm.trans hmoves)
  obtain rfl : rest = [⟨2, false, true⟩, ⟨3, false, true⟩] := congrArg (·.1.rest) hstate
  subst hanswers
  refine ⟨hfits, hs, ⟨_, hdrained, rfl⟩, congrArg Prod.fst hresult, congrArg (·.2.sequence? 0) hresult, ?_⟩
  rw [show result.2 = _ from congrArg Prod.snd hresult]
  exact hw.emits

end Workspace

end Growable
