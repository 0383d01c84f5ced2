import Growable.Proofs.Program.Demand
import Growable.Proofs.Program.Limits

/-!
# What a handle admits

As long as no command brings contents under a handle that admits less (`Command.Respects`), the limits of
the handles are kept: nothing larger is asked for through a handle than it admits, and a command that needs
more is refused before any allocator is asked.

* `Workspace.requests_within_quota` — the requests of such a program;
* `Workspace.moved_beyond_limit` — a move that asks for more than the handle admits.
-/

namespace Growable

open Act

variable {σ α : Type} {E : Element σ α} {ws : Workspace σ α} {a b n : Nat}

/-! ## More than is admitted -/

/-- As many elements as exceed the bytes exceed the limit of the length. -/
theorem Handle.maxSize_lt {h : Handle} {bytes : Nat} (hneed : h.maxBytes < bytes * n) :
    h.maxSize bytes < n :=
  Nat.lt_of_not_le fun hle => absurd (mul_le_maxBytes hle) (Nat.not_le.mpr hneed)

/-- As many words as exceed the bytes exceed the limit of the bits. -/
theorem BitSequence.maxSize_lt {s : BitSequence}
    (hneed : s.handle.maxBytes < Word.shape.bytes * Word.wordsFor n) : s.maxSize < n := by
  apply Nat.lt_of_not_le
  intro hle
  have hwords : Word.wordsFor n ≤ s.handle.maxSize Word.shape.bytes :=
    Nat.le_trans (Word.wordsFor_le.mpr hle) (Nat.min_le_left _ _)
  exact absurd (Handle.mul_le_maxBytes hwords) (Nat.not_le.mpr hneed)

/-- The bytes of the room that a command needs, as far as they are known before it begins. -/
def Command.need (E : Element σ α) (ws : Workspace σ α) : Command σ α → Nat
  | create a recipe _ => if a < ws.registers.length then E.bytes * recipe.need else 0
  | createBits a recipe _ =>
    if a < ws.registers.length then Word.shape.bytes * Word.wordsFor recipe.need else 0
  | edit a e => (ws.sequence? a).elim 0 fun s => E.bytes * e.need s
  | editBits a e => (ws.bitSequence? a).elim 0 fun s => Word.shape.bytes * Word.wordsFor (e.need s)
  | copy a _ => (ws.container? a).elim 0 (Container.contentBytes E)
  | copyDemanded a _ => (ws.container? a).elim 0 (Container.contentBytes E)
  | copyFrom a b => sharedNeed (ws.pair? a b)
  | moveFrom a b => sharedNeed (ws.pair? a b)
  | _ => 0
where
  /-- The contents of the second of two containers of one kind. -/
  sharedNeed : Option (Container α × Container α) → Nat
    | some (.elements _, .elements t) => E.bytes * t.len
    | some (.bits _, .bits t) => Word.shape.bytes * Word.wordsFor t.len
    | _ => 0

/-- A command came to nothing for lack of capacity, without asking an allocator: it was refused, or the drop
of an element that was given to it faulted after that. -/
structure Workspace.Declined (ws : Workspace σ α) (response : Response α) (ws' : Workspace σ α) :
    Prop where
  unasked : ws.world.Evolves (Event.Sized fun _ => 0) ws'.world
  response : response = .refused .capacityExceeded ∨
    (∃ f, response = .faulted f) ∧ ∃ x, ws'.world.trace.back? = some (.dropped x true)

/-- Two containers never need more than the content of the second. -/
theorem Command.sharedNeed_le (c d : Container α) :
    need.sharedNeed E (some (c, d)) ≤ d.contentBytes E := by
  cases c <;> cases d <;> first | exact Nat.le_refl _ | exact Nat.zero_le _

namespace Workspace

/-- Where nothing is requested, no byte is. -/
theorem unasked_of_rejected {given : Option α} {faulted : Bool} {w : World σ α}
    (h : ws.world.Rejected given [] faulted w) : ws.world.Evolves (Event.Sized fun _ => 0) w :=
  h.evolves.unrequested.mono fun _ he _ _ hbytes => by cases he.symm.trans hbytes

/-- What a rejection for lack of capacity comes to. -/
theorem declined_of_rejected {S : Type} {s : S} {given : Option α}
    {o : Outcome (S × World σ α) (Answer α)} {ws' : Workspace σ α}
    (h : o.Meets (.rejected .capacityExceeded [] given s ws.world)) (hworld : ws'.world = o.state.2) :
    ws.Declined (.ofOutcome o) ws' := by
  cases o with
  | done b u => exact h.elim
  | refused e u =>
      obtain ⟨rfl, _, hw⟩ := h
      exact ⟨hworld ▸ unasked_of_rejected hw, .inl rfl⟩
  | faulted f u => exact ⟨hworld ▸ unasked_of_rejected h.2, .inr ⟨⟨f, rfl⟩, hworld ▸ h.2.back?⟩⟩

/-- A container that would be too large is not made. -/
theorem store_exceeding {act : Act (World σ α) (Option (Container α))}
    (ha : a < ws.registers.length) (h : (act ws.world).Meets (.exceeded ws.world)) :
    (ws.store a act).2.1 = none ∧ ws.Declined (ws.store a act).1 (ws.store a act).2.2 := by
  have hstores := store_spec (a := a) h
  generalize ws.store a act = result at hstores
  cases hstores with
  | vacant hfar => exact absurd ha hfar
  | stored ha hc => exact hc.elim
  | invalid ha hnone => exact hnone.elim
  | refused ha he =>
      obtain ⟨rfl, hw⟩ := he
      exact ⟨rfl, unasked_of_rejected hw, .inl rfl⟩
  | faulted ha hf => exact hf.elim

/-- What is moved is no more than the handle admits that it is moved to. -/
theorem moveFrom_need_le {h : Handle} (hs : Sound E 0 ws)
    (hrespects : (Command.moveFrom a b : Command σ α).Respects E ws)
    (hrequester : (Command.moveFrom a b : Command σ α).requester ws = some h) :
    (Command.moveFrom a b : Command σ α).need E ws ≤ h.maxBytes := by
  simp only [Command.requester, Command.need] at hrequester ⊢
  cases hpair : ws.pair? a b with
  | none => exact Nat.zero_le _
  | some pair =>
      obtain ⟨c, d⟩ := pair
      obtain ⟨_, hc, hd⟩ := pair?_of_some hpair
      rw [hc] at hrequester
      cases hrequester
      exact Nat.le_trans (Command.sharedNeed_le c d)
        (Nat.le_trans (Container.contentBytes_le_moved (hs.valid b d hd) _) (hrespects c d hpair))

section Step

variable (hs : Sound E 0 ws) (hadmitted : ws.Admitted E)

include hadmitted

include hs

/-- An operation that needs more than the handle allows is declined, with nothing requested. -/
theorem edit_exceeding {s : Sequence α} (hc : ws.container? a = some (.elements s)) (e : Edit α)
    (hneed : s.handle.maxBytes < E.bytes * e.need s) :
    ws.Declined (ws.withSequence a (e.perform E)).1 (ws.withSequence a (e.perform E)).2 := by
  rw [withSequence_of_some (sequence?_of_elements hc)]
  exact declined_of_rejected (e.perform_exceeding (hs.valid a _ hc).len_le (hadmitted a _ hc)
    (Handle.maxSize_lt hneed)) rfl

/-- The same holds for a bit sequence. -/
theorem editBits_exceeding {s : BitSequence} (hc : ws.container? a = some (.bits s)) (e : BitEdit)
    (hneed : s.handle.maxBytes < Word.shape.bytes * Word.wordsFor (e.need s)) :
    ws.Declined (ws.withBits a e.perform).1 (ws.withBits a e.perform).2 := by
  rw [withBits_of_some (bitSequence?_of_bits hc)]
  exact declined_of_rejected (e.perform_exceeding (hs.valid a _ hc).len_le (hadmitted a _ hc)
    (BitSequence.maxSize_lt hneed)) rfl

/-- The same holds for a copy, for the handle that would make the request. -/
theorem copyFrom_exceeding {h : Handle}
    (hrequester : (Command.copyFrom a b : Command σ α).requester ws = some h)
    (hneed : h.maxBytes < (Command.copyFrom a b : Command σ α).need E ws) :
    (ws.perform E (.copyFrom a b)).2.1 = none ∧
      ws.Declined (ws.perform E (.copyFrom a b)).1 (ws.perform E (.copyFrom a b)).2.2 := by
  simp only [Command.requester, Command.need] at hrequester hneed
  cases hpair : ws.pair? a b with
  | none =>
      rw [hpair] at hrequester
      cases hrequester
  | some pair =>
      obtain ⟨c, d⟩ := pair
      obtain ⟨_, hc, hd⟩ := pair?_of_some hpair
      rw [hpair] at hrequester hneed
      rw [Option.map_some] at hrequester
      have hle := Nat.le_trans (Command.sharedNeed_le (E := E) c d) (contentBytes_le hs hadmitted hd)
      have hown : ¬ c.handle.Foreign d.handle := by
        intro hforeign
        rw [if_pos hforeign] at hrequester
        cases hrequester
        exact absurd hle (Nat.not_le.mpr hneed)
      rw [if_neg hown] at hrequester
      cases hrequester
      cases c with
      | elements s =>
          cases d with
          | elements t =>
              have hrejected := Sequence.copyFrom_exceeding (w := ws.world) (hs.valid a _ hc).len_le
                (hadmitted a _ hc) hown (Handle.maxSize_lt hneed)
              simp only [perform, hpair, perform.keep]
              rw [withSequence_of_some (sequence?_of_elements hc)]
              exact ⟨trivial, declined_of_rejected (Post.rejected_bind hrejected) rfl⟩
          | bits t => cases hneed
      | bits s =>
          cases d with
          | elements t => cases hneed
          | bits t =>
              have hrejected := BitSequence.copyFrom_exceeding (w := ws.world) (hs.valid a _ hc).len_le
                (hadmitted a _ hc) hown (BitSequence.maxSize_lt hneed)
              simp only [perform, hpair, perform.keep]
              rw [withBits_of_some (bitSequence?_of_bits hc)]
              exact ⟨trivial, declined_of_rejected (Post.rejected_bind hrejected) rfl⟩

/-- A copy is no larger than the handle admits, as the container itself is. -/
theorem copy_need_le {h : Handle} (hrequester : (ws.container? a).map Container.handle = some h) :
    (ws.container? a).elim 0 (Container.contentBytes E) ≤ h.maxBytes := by
  cases hc : ws.container? a with
  | none => exact Nat.zero_le _
  | some c =>
      rw [hc] at hrequester
      cases hrequester
      exact contentBytes_le hs hadmitted hc

/-- **Step.**  A command that needs more than its handle admits is declined. -/
theorem perform_exceeding (hfits : E.toShape.Fits) (command : Command σ α) {h : Handle}
    (hrespects : command.Respects E ws) (hrequester : command.requester ws = some h)
    (hneed : h.maxBytes < command.need E ws) :
    (ws.perform E command).2.1 = none ∧
      ws.Declined (ws.perform E command).1 (ws.perform E command).2.2 := by
  cases command with
  | create a recipe handle =>
      simp only [Command.need] at hneed
      obtain ⟨ha, hneed⟩ := lt_of_lt_ite hneed
      cases hrequester
      have hmax : h.maxSize E.bytes < recipe.need := Handle.maxSize_lt hneed
      exact store_exceeding ha (Post.exceeded_bind
        ((recipe.create_makes hfits h (recipe.foreseen_of_need (Nat.zero_lt_of_lt hmax))).exceeding hmax))
  | createBits a recipe handle =>
      simp only [Command.need] at hneed
      obtain ⟨ha, hneed⟩ := lt_of_lt_ite hneed
      cases hrequester
      have hmax : (BitSequence.empty h).maxSize < recipe.need := BitSequence.maxSize_lt hneed
      exact store_exceeding ha (Post.exceeded_bind
        ((recipe.createBits_makes h (recipe.foreseen_of_need (Nat.zero_lt_of_lt hmax))).exceeding hmax))
  | edit a e =>
      simp only [Command.need] at hneed
      cases hsome : ws.sequence? a with
      | none =>
          rw [hsome] at hneed
          cases hneed
      | some s =>
          have hc := container?_of_sequence? hsome
          simp only [Command.requester, hc] at hrequester
          cases hrequester
          rw [hsome] at hneed
          exact ⟨rfl, edit_exceeding hs hadmitted hc e hneed⟩
  | editBits a e =>
      simp only [Command.need] at hneed
      cases hsome : ws.bitSequence? a with
      | none =>
          rw [hsome] at hneed
          cases hneed
      | some s =>
          have hc := container?_of_bitSequence? hsome
          simp only [Command.requester, hc] at hrequester
          cases hrequester
          rw [hsome] at hneed
          exact ⟨rfl, editBits_exceeding hs hadmitted hc e hneed⟩
  | copy a b => exact absurd (copy_need_le hs hadmitted hrequester) (Nat.not_le.mpr hneed)
  | copyDemanded a b => exact absurd (copy_need_le hs hadmitted hrequester) (Nat.not_le.mpr hneed)
  | copyFrom a b => exact copyFrom_exceeding hs hadmitted hrequester hneed
  | moveFrom a b =>
      exact absurd (moveFrom_need_le hs hrespects hrequester) (Nat.not_le.mpr hneed)
  | discard | drain | setPolicy | setCode => cases hrequester

end Step

/-- **The quotas are kept.**  After a program that respects the limits of the handles, no container occupies
more than its handle admits.  A further command that does so asks for at least one byte each time, and of
no allocator for more than is admitted by the handle through which it asks; and if it needs more than that,
it is refused for lack of capacity without asking any allocator. -/
theorem requests_within_quota (E : Element σ α) (registers : Nat) (accounts : List Account) (code : σ)
    (commands : List (Command σ α))
    (hrespectful : Respectful E (initial registers accounts code) commands) :
    let ws := (runAll E (initial registers accounts code) commands).2
    ws.Capped E ∧ ∀ command : Command σ α, command.Respects E ws →
      ws.world.Evolves (Event.Sized (command.quota ws)) (ws.run E command).2.world ∧
      (E.toShape.Fits → ∀ h, command.requester ws = some h → h.maxBytes < command.need E ws →
        ws.Declined (ws.run E command).1 (ws.run E command).2) := by
  intro ws
  have hs : Sound E 0 ws := runAll_sound commands (sound_initial registers accounts code)
  have hadmitted : ws.Admitted E := runAll_admitted (sound_initial registers accounts code)
    (admitted_initial registers accounts code) commands hrespectful
  refine ⟨hadmitted.capped, fun command hrespects => ⟨?_, fun hfits h hrequester hneed => ?_⟩⟩
  · exact ((perform_admitted hs hadmitted command hrespects).run Event.sized_of_returning).evolves
  · obtain ⟨hnone, hdeclined⟩ := perform_exceeding hs hadmitted hfits command hrespects hrequester hneed
    unfold run
    generalize ws.perform E command = result at hnone hdeclined
    obtain ⟨response, replaced, ws'⟩ := result
    subst hnone
    exact hdeclined

/-- Two numbers are moved to a sequence whose handle admits two of them. -/
theorem requests_within_quota_moved :
    let E : Element Unit Nat := .plain ⟨4, 4⟩ 0
    let wide : Handle := (Handle.of ⟨0, .numbered 0⟩).interchanging Handle.sameIdentity
    let narrow : Handle := ((Handle.of ⟨1, .numbered 1⟩).capped 8).interchanging Handle.sameIdentity
    let commands : List (Command Unit Nat) :=
      [.create 0 (.ofList [1, 2]) wide, .create 1 .empty narrow, .moveFrom 1 0]
    let ws := (runAll E (initial 2 [.unlimited, .unlimited] ()) commands).2
    Respectful E (initial 2 [.unlimited, .unlimited] ()) commands ∧
      ws.Capped E ∧ ∀ command : Command Unit Nat, command.Respects E ws →
        ws.world.Evolves (Event.Sized (command.quota ws)) (ws.run E command).2.world ∧
        (E.toShape.Fits → ∀ h, command.requester ws = some h → h.maxBytes < command.need E ws →
          ws.Declined (ws.run E command).1 (ws.run E command).2) := by
  intro E wide narrow commands ws
  have hfits : ((runAll E (initial 2 [.unlimited, .unlimited] ()) (commands.take 2)).2.pair? 1 0).all
      (fun pair => decide (pair.2.movedBytes E pair.1.handle ≤ pair.1.handle.maxBytes)) = true := by decide +kernel
  have hrespectful : Respectful E (initial 2 [.unlimited, .unlimited] ()) commands := by
    refine ⟨trivial, trivial, fun c d hpair => ?_, trivial⟩
    change (runAll E (initial 2 [.unlimited, .unlimited] ()) (commands.take 2)).2.pair? 1 0
      = some (c, d) at hpair
    rw [hpair] at hfits
    exact of_decide_eq_true hfits
  exact ⟨hrespectful, requests_within_quota E 2 [.unlimited, .unlimited] () commands hrespectful⟩

/-- Four numbers are moved to a sequence whose handle admits two of them, and which asks its allocator for
the sixteen bytes that they take. -/
theorem moved_beyond_limit :
    let E : Element Unit Nat := .plain ⟨4, 4⟩ 0
    let wide : Handle := (Handle.of ⟨0, .numbered 0⟩).interchanging Handle.sameIdentity
    let narrow : Handle := ((Handle.of ⟨1, .numbered 1⟩).capped 8).interchanging Handle.sameIdentity
    let ws := (runAll E (initial 2 [.unlimited, .unlimited] ())
      [.create 0 (.ofList [1, 2, 3, 4]) wide, .create 1 .empty narrow]).2
    let moved := ws.run E (.moveFrom 1 0)
    narrow.maxBytes = 8 ∧ ws.sequence? 1 = some (.empty narrow) ∧ moved.1 = .answer .nothing ∧
      moved.2.world.trace.toList = ws.world.trace.toList ++ [.granted 1 1 16] ∧
      (moved.2.sequence? 1).map Sequence.items = some [1, 2, 3, 4] :=
  ⟨rfl, rfl, rfl, rfl, rfl⟩

end Workspace

end Growable
