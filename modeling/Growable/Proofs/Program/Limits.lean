import Growable.Proofs.Program.Evolution

/-!
# What may be asked for through a handle

A command asks for memory through one handle: that of the container it works on, or the one it is given
(`Command.requester`).  A handle admits a number of bytes in a block, and no growth exceeds it.  Contents
may be larger than their handle admits all the same, where they came with their block from a sequence
whose handle admits more, or were left to a handle that admits less; and then they are moved, copied and
shrunk as they are.  As long as no command brings this about (`Command.Respects`), no container has more
room than its handle admits, and every request is within what the handle admits through which it is made
(`Workspace.perform_admitted`, `Workspace.runAll_admitted`).
-/

namespace Growable

open Act

variable {σ α : Type} {E : Element σ α}

/-! ## Quotas -/

instance (h other : Handle) : Decidable (h.Foreign other) :=
  inferInstanceAs (Decidable (_ ∧ _))

/-- The most bytes that may be asked of the allocator at a place through the handle: as many as the handle
admits of its own allocator, and none of any other. -/
def Handle.quota (h : Handle) (place : Nat) : Nat :=
  if place = h.allocator.place then h.maxBytes else 0

/-- At its own allocator, the quota of a handle is its limit. -/
theorem Handle.quota_place (h : Handle) : h.quota h.allocator.place = h.maxBytes := if_pos rfl

/-- Dealings within what the handle admits are within its quota. -/
theorem Handle.sized_quota (h : Handle) :
    ∀ e : Event α, e.Local h.allocator.place h.maxBytes → e.Sized h.quota :=
  Event.sized_of_local h.quota_place.ge

/-- A number of elements that some handle admits is admitted by one that admits their bytes. -/
theorem Handle.le_maxSize {h h' : Handle} {bytes n : Nat} (hn : n ≤ h'.maxSize bytes)
    (hbytes : bytes * n ≤ h.maxBytes) : n ≤ h.maxSize bytes := by
  unfold maxSize at hn ⊢
  by_cases hzero : bytes = 0
  · rw [if_pos hzero] at hn ⊢
    exact hn
  · rw [if_neg hzero, Nat.le_div_iff_mul_le (Nat.pos_of_ne_zero hzero), Nat.mul_comm]
    exact hbytes

/-- The same for words. -/
theorem BitSequence.le_maxWords {s s' : BitSequence} {n : Nat} (hn : n ≤ s'.maxWords)
    (hbytes : Word.shape.bytes * n ≤ s.handle.maxBytes) : n ≤ s.maxWords :=
  Nat.le_min.mpr ⟨Handle.le_maxSize (hn.trans (Nat.min_le_left _ _)) hbytes,
    hn.trans (Nat.min_le_right _ _)⟩

namespace Container

variable {c : Container α}

/-- The container occupies no more than its handle admits. -/
def Capped (E : Element σ α) (c : Container α) : Prop := c.bytes E ≤ c.handle.maxBytes

/-- A block that the handle admits is within its limit. -/
theorem Admitted.capped (hc : c.Admitted E) : c.Capped E := by
  cases c with
  | elements s => exact Handle.mul_le_maxBytes hc
  | bits s => exact Handle.mul_le_maxBytes ((admitted_bits.mp hc).trans (Nat.min_le_left _ _))

/-- The bytes that a container occupies once its contents are moved under a handle: those of its block, if
the block can pass to it, and otherwise those that the contents take. -/
def movedBytes (E : Element σ α) (h : Handle) (c : Container α) : Nat :=
  if h.isEquivalent c.handle then c.bytes E else c.contentBytes E

/-- Between equivalent handles the whole block moves. -/
theorem movedBytes_of_passes {h : Handle} (hpasses : h.isEquivalent c.handle = true) :
    c.movedBytes E h = c.bytes E :=
  if_pos hpasses

/-- What moves is at least the content. -/
theorem contentBytes_le_moved (hc : c.Valid E) (h : Handle) : c.contentBytes E ≤ c.movedBytes E h := by
  unfold movedBytes
  split
  · exact contentBytes_le hc
  · exact Nat.le_refl _

end Container

/-! ## Commands -/

/-- The handle through which a command asks for memory, if it asks for any. -/
def Command.requester (ws : Workspace σ α) : Command σ α → Option Handle
  | create _ _ handle => some handle
  | createBits _ _ handle => some handle
  | edit a _ => (ws.container? a).map Container.handle
  | editBits a _ => (ws.container? a).map Container.handle
  | copy a _ => (ws.container? a).map Container.handle
  | copyDemanded a _ => (ws.container? a).map Container.handle
  | copyFrom a b => (ws.pair? a b).map fun pair =>
    if pair.1.handle.Foreign pair.2.handle then pair.2.handle else pair.1.handle
  | moveFrom a _ => (ws.container? a).map Container.handle
  | _ => none

/-- The most bytes that a command may ask of the allocator at a place. -/
def Command.quota (ws : Workspace σ α) (command : Command σ α) (place : Nat) : Nat :=
  (command.requester ws).elim 0 (·.quota place)

/-- What is moved occupies no more than the handle admits that it is moved to; and a handle that takes the
place of another one, where the block stays, admits the block. -/
def Command.Respects (E : Element σ α) (ws : Workspace σ α) : Command σ α → Prop
  | copyFrom a b => ∀ c d, ws.pair? a b = some (c, d) → d.handle.propagates →
    ¬ c.handle.Foreign d.handle → c.bytes E ≤ d.handle.maxBytes
  | moveFrom a b => ∀ c d, ws.pair? a b = some (c, d) → d.movedBytes E c.handle ≤ c.handle.maxBytes
  | _ => True

/-- A command has the quota of the handle that requests for it. -/
theorem Command.quota_of_requester {ws : Workspace σ α} {command : Command σ α} {h : Handle}
    (hrequester : command.requester ws = some h) : command.quota ws = h.quota := by
  funext place
  rw [quota, hrequester]
  rfl

/-- A command that asks through the handle of the container it works on. -/
theorem Command.quota_of_container {ws : Workspace σ α} {command : Command σ α} {a : Nat}
    {c : Container α} (hc : ws.container? a = some c)
    (hrequester : command.requester ws = (ws.container? a).map Container.handle) :
    command.quota ws = c.handle.quota :=
  quota_of_requester (hrequester.trans (congrArg _ hc))

/-- Copying asks through the handle that comes along, where that is foreign, and otherwise through the one
that is there. -/
theorem Command.quota_copyFrom {ws : Workspace σ α} {a b : Nat} {c d : Container α}
    (hpair : ws.pair? a b = some (c, d)) : (copyFrom a b : Command σ α).quota ws
      = (if c.handle.Foreign d.handle then d.handle else c.handle).quota := by
  apply quota_of_requester
  rw [requester, hpair]
  rfl

namespace Workspace

variable {ws : Workspace σ α} {a b : Nat} {s t : Sequence α} {bs bt : BitSequence}

/-- No container occupies more than its handle admits. -/
def Capped (E : Element σ α) (ws : Workspace σ α) : Prop :=
  ∀ a c, ws.container? a = some c → c.Capped E

/-- The handles admit all the room that their containers have. -/
def Admitted (E : Element σ α) (ws : Workspace σ α) : Prop :=
  ∀ a c, ws.container? a = some c → c.Admitted E

/-- In an admitted workspace every block is within the limit of its handle. -/
theorem Admitted.capped (h : ws.Admitted E) : ws.Capped E := fun a c hc => (h a c hc).capped

/-- A workspace without containers is admitted. -/
theorem admitted_initial (registers : Nat) (accounts : List Account) (code : σ) :
    (initial registers accounts code : Workspace σ α).Admitted E := by
  intro a c hc
  rw [container?_initial] at hc
  cases hc

section Step

variable (hs : Sound E 0 ws) (hadmitted : ws.Admitted E)

include hs hadmitted

/-- The contents of a container are within what its handle admits. -/
theorem contentBytes_le {c : Container α} (hc : ws.container? a = some c) :
    c.contentBytes E ≤ c.handle.maxBytes :=
  Nat.le_trans (Container.contentBytes_le (hs.valid a c hc)) (hadmitted a c hc).capped

/-- An operation on a sequence keeps it admitted, and its requests are within the quota. -/
theorem edit_admitted (a : Nat) (e : Edit α) :
    Advances (Event.Sized ((Command.edit a e : Command σ α).quota ws)) (Container.Admitted E) ws
      (ws.withSequence a (e.perform E)).2 := by
  apply (edited_withSequence _).advances hadmitted
  intro s hc
  rw [Command.quota_of_container hc rfl]
  have hfits : s.region.capacity ≤ s.handle.maxSize E.bytes := hadmitted a _ hc
  have hlen : s.len ≤ s.region.capacity := (hs.valid a _ hc).len_le
  have hdone := e.perform_evolves s.handle.sized_quota (Nat.le_refl _) hfits (fun _ => id)
    (fun _ => ⟨contentBytes_le hs hadmitted hc, fun _ hr => hr.trans (hlen.trans hfits)⟩)
    (.refl ws.world)
  refine hdone.always_imp fun u hu => ⟨?_, hu.2⟩
  exact hu.1.2.trans_eq (congrArg (Handle.maxSize · E.bytes) hu.1.1.symm)

theorem editBits_admitted (a : Nat) (e : BitEdit) :
    Advances (Event.Sized ((Command.editBits a e : Command σ α).quota ws)) (Container.Admitted E) ws
      (ws.withBits a e.perform).2 := by
  apply (edited_withBits _).advances hadmitted
  intro s hc
  rw [Command.quota_of_container hc rfl]
  have hfits : s.words.size ≤ s.maxWords := Container.admitted_bits.mp (hadmitted a _ hc)
  have hlen : Word.wordsFor s.len ≤ s.words.size := Word.wordsFor_le.mpr (hs.valid a _ hc).len_le
  have hdone := e.perform_evolves s.handle.sized_quota (Nat.le_refl _) hfits (fun _ => id)
    (fun _ => ⟨contentBytes_le hs hadmitted hc, fun _ hr => hr.trans (hlen.trans hfits)⟩)
    (.refl ws.world)
  refine hdone.always_imp fun u hu => ⟨?_, hu.2⟩
  exact Container.Admitted.of_noLarger (Container.admitted_bits.mpr hu.1.2)
    (d := .bits { u.1 with handle := s.handle }) (Container.noLarger_bits hu.1.1 (Nat.le_refl _))

/-- A copy of a sequence is admitted if a handle that comes with it admits the block that stays. -/
theorem copyFrom_elements_admitted {s t : Sequence α} (hc : ws.container? a = some (.elements s))
    (ht : ws.container? b = some (.elements t))
    (hrespects : t.handle.propagates → ¬ s.handle.Foreign t.handle →
      E.bytes * s.capacity ≤ t.handle.maxBytes) :
    (Sequence.copyFrom E t (s, ws.world)).Meets (.always fun u => Container.Admitted E (.elements u.1) ∧
      ws.world.Evolves
        (Event.Sized (if s.handle.Foreign t.handle then t.handle else s.handle).quota) u.2) := by
  have hfits : s.region.capacity ≤ s.handle.maxSize E.bytes := hadmitted a _ hc
  have hlen : t.len ≤ t.handle.maxSize E.bytes := (hs.valid b _ ht).len_le.trans (hadmitted b _ ht)
  by_cases hforeign : s.handle.Foreign t.handle
  · rw [if_pos hforeign]
    have hcopied := Sequence.copyFrom_evolves_foreign hforeign (Event.sized_of_returning _)
      t.handle.sized_quota (contentBytes_le hs hadmitted ht) (.refl ws.world)
    refine hcopied.always_imp fun u hu => ⟨?_, hu.2⟩
    rw [Container.Admitted, Container.maxSize, Sequence.maxSize]
    rcases hu.1 with ⟨hhandle, hregion⟩ | ⟨hhandle, hcapacity⟩
    · rw [hhandle]
      exact (congrArg Region.capacity hregion).trans_le hfits
    · rw [hhandle]
      exact hcapacity.trans_le hlen
  · rw [if_neg hforeign]
    have hcopied := Sequence.copyFrom_evolves_own hforeign s.handle.sized_quota
      (P := fun r => r.capacity ≤ s.handle.maxSize E.bytes ∧
        (t.handle.propagates → r.capacity ≤ t.handle.maxSize E.bytes))
      ⟨hfits, fun hcomes => Handle.le_maxSize hfits (hrespects hcomes hforeign)⟩
      (Handle.mul_le (Nat.le_refl _)) (fun _ hr hle => ⟨hle, fun _ => hr.trans_le hlen⟩)
      (.refl ws.world)
    refine hcopied.always_imp fun u hu => ⟨?_, hu.2⟩
    rw [Container.Admitted, Container.maxSize, Sequence.maxSize]
    rcases hu.1.1 with hhandle | ⟨hcomes, hhandle⟩
    · rw [hhandle]
      exact hu.1.2.1
    · rw [hhandle]
      exact hu.1.2.2 hcomes

theorem copyFrom_bits_admitted {s t : BitSequence} (hc : ws.container? a = some (.bits s))
    (ht : ws.container? b = some (.bits t))
    (hrespects : t.handle.propagates → ¬ s.handle.Foreign t.handle →
      Word.shape.bytes * s.words.size ≤ t.handle.maxBytes) :
    (BitSequence.copyFrom t (s, ws.world)).Meets (.always fun u => Container.Admitted E (.bits u.1) ∧
      ws.world.Evolves
        (Event.Sized (if s.handle.Foreign t.handle then t.handle else s.handle).quota) u.2) := by
  have hfits : s.words.size ≤ s.maxWords := Container.admitted_bits.mp (hadmitted a _ hc)
  have hlen : Word.wordsFor t.len ≤ t.maxWords :=
    (Word.wordsFor_le.mpr (hs.valid b _ ht).len_le).trans (Container.admitted_bits.mp (hadmitted b _ ht))
  by_cases hforeign : s.handle.Foreign t.handle
  · rw [if_pos hforeign]
    have hcopied := BitSequence.copyFrom_evolves_foreign hforeign (Event.sized_of_returning _)
      (Event.upkeep_of_local t.handle.sized_quota) (contentBytes_le hs hadmitted ht) (.refl ws.world)
    refine hcopied.always_imp fun u hu => ⟨?_, hu.2⟩
    rw [Container.admitted_bits, BitSequence.maxWords]
    rcases hu.1 with ⟨hhandle, hregion⟩ | ⟨hhandle, hsize⟩
    · rw [hhandle]
      exact (congrArg Region.capacity hregion).trans_le hfits
    · rw [hhandle]
      exact hsize.trans hlen
  · rw [if_neg hforeign]
    have hcopied := BitSequence.copyFrom_evolves_own hforeign
      (Event.upkeep_of_local s.handle.sized_quota)
      (P := fun r => r.capacity ≤ s.maxWords ∧ (t.handle.propagates → r.capacity ≤ t.maxWords))
      ⟨hfits, fun hcomes => BitSequence.le_maxWords hfits (hrespects hcomes hforeign)⟩
      (BitSequence.bytes_le (Nat.le_refl _)) (fun _ hr hle => ⟨hle, fun _ => hr.trans_le hlen⟩)
      (.refl ws.world)
    refine hcopied.always_imp fun u hu => ⟨?_, hu.2⟩
    rw [Container.admitted_bits, BitSequence.maxWords]
    rcases hu.1.1 with hhandle | ⟨hcomes, hhandle⟩
    · rw [hhandle]
      exact hu.1.2.1
    · rw [hhandle]
      exact hu.1.2.2 hcomes

/-- A copy that respects the handles keeps the workspace admitted. -/
theorem copyFrom_admitted (a b : Nat) (hrespects : (Command.copyFrom a b : Command σ α).Respects E ws) :
    Advances (Event.Sized ((Command.copyFrom a b : Command σ α).quota ws)) (Container.Admitted E) ws
      (ws.perform E (.copyFrom a b)).2.2 := by
  apply copyFrom_advances hadmitted
  · intro s t hpair
    obtain ⟨_, hc, hd⟩ := pair?_of_some hpair
    rw [Command.quota_copyFrom hpair]
    exact copyFrom_elements_admitted hs hadmitted hc hd (hrespects _ _ hpair)
  · intro s t hpair
    obtain ⟨_, hc, hd⟩ := pair?_of_some hpair
    rw [Command.quota_copyFrom hpair]
    exact copyFrom_bits_admitted hs hadmitted hc hd (hrespects _ _ hpair)

theorem moveFrom_admitted (a b : Nat) (hrespects : (Command.moveFrom a b : Command σ α).Respects E ws) :
    Advances (Event.Sized ((Command.moveFrom a b : Command σ α).quota ws)) (Container.Admitted E) ws
      (ws.perform E (.moveFrom a b)).2.2 := by
  -- What comes is within the limit of the handle that it comes to.
  have hcontents : ∀ {c d : Container α}, ws.pair? a b = some (c, d) → d.Valid E →
      d.contentBytes E ≤ c.handle.maxBytes := fun hpair hd =>
    (Container.contentBytes_le_moved hd _).trans (hrespects _ _ hpair)
  have hblock : ∀ {c d : Container α}, ws.pair? a b = some (c, d) →
      c.handle.isEquivalent d.handle = true → d.bytes E ≤ c.handle.maxBytes := fun hpair hpasses =>
    (Container.movedBytes_of_passes hpasses).symm.trans_le (hrespects _ _ hpair)
  apply moveFrom_advances hadmitted
  · intro s t hpair
    obtain ⟨_, hc, hd⟩ := pair?_of_some hpair
    have hle : E.bytes * t.len ≤ s.handle.maxBytes := hcontents hpair (hs.valid b _ hd)
    have hfits : t.region.capacity ≤ t.handle.maxSize E.bytes := hadmitted b _ hd
    have hlen : t.len ≤ t.handle.maxSize E.bytes := (hs.valid b _ hd).len_le.trans hfits
    rw [Command.quota_of_container hc rfl]
    have hmoved := Sequence.moveFrom_evolves (P := (·.capacity ≤ s.handle.maxSize E.bytes))
      (Event.upkeep_of_local s.handle.sized_quota) (hadmitted a _ hc) hle
      (fun hpasses => Handle.le_maxSize hfits (hblock hpair hpasses))
      (fun _ _ hr => hr.trans_le (Handle.le_maxSize hlen hle)) (.refl ws.world)
    refine hmoved.always_imp fun u hu => ⟨⟨?_, ?_⟩, hu.1.2⟩
    · exact hu.1.1.2.trans_eq (congrArg (Handle.maxSize · E.bytes) hu.1.1.1.symm)
    · exact (hadmitted b _ hd).of_noLarger (Container.noLarger_elements hu.2.1 (Region.capacity_le_of_left hu.2.2))
  · intro s t hpair
    obtain ⟨_, hc, hd⟩ := pair?_of_some hpair
    have hle : Word.shape.bytes * Word.wordsFor t.len ≤ s.handle.maxBytes :=
      hcontents hpair (hs.valid b _ hd)
    have hfits : t.words.size ≤ t.maxWords := Container.admitted_bits.mp (hadmitted b _ hd)
    have hlen : Word.wordsFor t.len ≤ s.maxWords := BitSequence.le_maxWords
      ((Word.wordsFor_le.mpr (hs.valid b _ hd).len_le).trans hfits) hle
    rw [Command.quota_of_container hc rfl]
    have hmoved := BitSequence.moveFrom_evolves (P := (·.capacity ≤ s.maxWords))
      (Event.upkeep_of_local s.handle.sized_quota) (Container.admitted_bits.mp (hadmitted a _ hc)) hle
      (fun hpasses => BitSequence.le_maxWords hfits (hblock hpair hpasses))
      (fun _ _ hr => hr.trans hlen) (.refl ws.world)
    refine hmoved.always_imp fun u hu => ⟨⟨?_, ?_⟩, hu.1.2⟩
    · rw [Container.admitted_bits, BitSequence.maxWords, hu.1.1.1]
      exact hu.1.1.2
    · exact (hadmitted b _ hd).of_noLarger (Container.noLarger_bits hu.2.1 (Region.capacity_le_of_left hu.2.2))

/-- **Step.**  A command that respects the limits asks for no more than its handle admits, and leaves all
containers within theirs. -/
theorem perform_admitted (command : Command σ α) (hrespects : command.Respects E ws) :
    Advances (Event.Sized (command.quota ws)) (Container.Admitted E) ws
      (ws.perform E command).2.2 := by
  cases command with
  | create a recipe handle =>
      exact made_advances hadmitted (recipe.yields_create handle.sized_quota (Nat.le_refl _)) fun _ hc => hc.2
  | createBits a recipe handle =>
      exact made_advances hadmitted (recipe.yields_createBits handle.sized_quota (Nat.le_refl _))
        fun _ hc => hc.2
  | edit a e => exact edit_admitted hs hadmitted a e
  | editBits a e => exact editBits_admitted hs hadmitted a e
  | copy a b =>
      refine copy_cases (P := fun result => Advances _ _ ws result.2.2) (advances_refl hadmitted) fun c hc => ?_
      rw [Command.quota_of_container hc rfl]
      exact made_advances hadmitted (Container.yields_copy c.handle.sized_quota (hs.valid a c hc)
        (contentBytes_le hs hadmitted hc)) fun _ => (hadmitted a c hc).of_noLarger
  | copyDemanded a b =>
      refine copyDemanded_cases (P := fun result => Advances _ _ ws result.2.2) (advances_refl hadmitted)
        fun c hc => ?_
      rw [Command.quota_of_container hc rfl]
      exact made_advances hadmitted (Container.yields_copyDemanded c.handle.sized_quota (hs.valid a c hc)
        (contentBytes_le hs hadmitted hc)) fun _ => (hadmitted a c hc).of_noLarger
  | copyFrom a b => exact copyFrom_admitted hs hadmitted a b hrespects
  | moveFrom a b => exact moveFrom_admitted hs hadmitted a b hrespects
  | discard a => exact discard_advances Event.sized_of_returning hadmitted
  | drain a moves => exact drain_advances Event.sized_of_returning moves hadmitted
  | setPolicy place policy => exact advances_world hadmitted (.of_eq rfl rfl)
  | setCode code => exact advances_world hadmitted (.of_eq rfl rfl)

end Step

/-- Each command of a program respects the limits of the handles when its turn comes. -/
def Respectful (E : Element σ α) (ws : Workspace σ α) : List (Command σ α) → Prop
  | [] => True
  | command :: rest => command.Respects E ws ∧ Respectful E (ws.run E command).2 rest

/-- **Run.** -/
theorem runAll_admitted (hs : Sound E 0 ws) (hadmitted : ws.Admitted E)
    (commands : List (Command σ α)) (hrespectful : Respectful E ws commands) : (ws.runAll E commands).2.Admitted E := by
  induction commands generalizing ws with
  | nil => exact hadmitted
  | cons command rest ih =>
      obtain ⟨hrespects, hrest⟩ := hrespectful
      have hnext := (perform_admitted hs hadmitted command hrespects).run Event.sized_of_returning
      exact ih (run_sound command hs) hnext.holds hrest

end Workspace

end Growable
