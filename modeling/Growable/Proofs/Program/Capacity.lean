import Growable.Proofs.Checked.BitSequence
import Growable.Proofs.Checked.Feed
import Growable.Proofs.Program.Limits

/-!
# Capacities that a size can express

No container ever has more room than a size can express (`Workspace.Counted.run`,
`Workspace.Counted.runAll`): a region is taken within what its handle admits, or it has as many slots as
another container has contents, or it comes from another container as it is.  None of this depends on what the
handles of the containers admit, nor on what the commands ask for.
-/

namespace Growable

open Act

variable {σ α : Type} {E : Element σ α}

namespace Container

/-- A size can express the capacity. -/
def Counted (c : Container α) : Prop := c.capacity ≤ Size.limit

/-- No handle admits more than the limit of a size. -/
theorem maxSize_le_limit (E : Element σ α) (c : Container α) : c.maxSize E ≤ Size.limit := by
  cases c with
  | elements s => exact s.handle.maxSize_le_limit E.bytes
  | bits s => exact s.maxWords_le_limit

/-- What the handle admits can be counted. -/
theorem Admitted.counted {c : Container α} (h : c.Admitted E) : c.Counted := h.trans (c.maxSize_le_limit E)

end Container

namespace Workspace

variable {ws : Workspace σ α} {a b : Nat}

/-- A sound workspace of containers with capacities that a size can express. -/
structure Counted (E : Element σ α) (ws : Workspace σ α) : Prop where
  sound : Sound E 0 ws
  capacity_le : ∀ a c, ws.container? a = some c → c.Counted

section Step

variable (h : Counted E ws)

include h

/-- The elements in a register can be counted. -/
theorem Counted.elements {s : Sequence α} (hc : ws.container? a = some (.elements s)) :
    Sequence.Counted E ((ws.put a none).assets E + 0) (s, ws.world) := by
  obtain ⟨hvalid, howns⟩ := h.sound.parts hc
  exact ⟨⟨hvalid, howns⟩, h.capacity_le a _ hc⟩

/-- The bits in a register can be counted. -/
theorem Counted.bits {s : BitSequence} (hc : ws.container? a = some (.bits s)) :
    BitSequence.Counted ((ws.put a none).assets E + 0) (s, ws.world) := by
  obtain ⟨hvalid, howns⟩ := h.sound.parts hc
  exact ⟨⟨hvalid, howns⟩, h.capacity_le a _ hc⟩

/-- An operation on a sequence leaves a length that can be counted. -/
theorem Counted.edit_advances (a : Nat) (e : Edit α) :
    Advances (fun _ => True) Container.Counted ws (ws.withSequence a (e.perform E)).2 := by
  refine (edited_withSequence _).advances h.capacity_le fun s hc => ?_
  have hs := h.elements hc
  have hmost : s.handle.maxBytes ≤ max s.handle.maxBytes (E.bytes * s.len) := Nat.le_max_left _ _
  have hdone := e.perform_evolves (P := fun r => r.capacity ≤ Size.limit) (fun _ _ => trivial) hmost
    hs.capacity_le Sequence.capacity_le_limit
    (fun _ => ⟨Nat.le_max_right _ _, fun r hr => hr.trans hs.countable.len_le⟩) (.refl ws.world)
  exact hdone.always_imp fun u hu => ⟨hu.1.2, hu.2⟩

theorem Counted.editBits_advances (a : Nat) (e : BitEdit) :
    Advances (fun _ => True) Container.Counted ws (ws.withBits a e.perform).2 := by
  refine (edited_withBits _).advances h.capacity_le fun s hc => ?_
  have hs := h.bits hc
  have hwords : Word.wordsFor s.len ≤ s.words.size := Word.wordsFor_le.mpr hs.sound.valid.len_le
  have hmost : s.handle.maxBytes ≤ max s.handle.maxBytes (Word.shape.bytes * Word.wordsFor s.len) :=
    Nat.le_max_left _ _
  have hdone := e.perform_evolves (P := fun r => r.capacity * Word.size ≤ Size.limit) (fun _ _ => trivial)
    hmost hs.capacity_le
    (fun r hr => (Nat.mul_le_mul_right _ hr).trans s.maxWords_le_limit)
    (fun _ => ⟨Nat.le_max_right _ _, fun r hr =>
      (Nat.mul_le_mul_right _ (hr.trans hwords)).trans hs.capacity_le⟩) (.refl ws.world)
  exact hdone.always_imp fun u hu => ⟨hu.1.2, hu.2⟩

theorem Counted.copyFrom_advances (a b : Nat) :
    Advances (fun _ => True) Container.Counted ws (ws.perform E (.copyFrom a b)).2.2 := by
  refine Workspace.copyFrom_advances h.capacity_le ?_ ?_
  · intro s t hpair
    obtain ⟨_, hc, hd⟩ := pair?_of_some hpair
    have hs := h.elements hc
    have ht := (h.elements hd).countable
    by_cases hforeign : s.handle.Foreign t.handle
    · have hcopied := Sequence.copyFrom_evolves_foreign (E := E) (Q := fun _ => True) hforeign
        (fun _ _ => trivial) (fun _ _ => trivial) (Nat.le_refl _) (.refl ws.world)
      refine hcopied.always_imp fun u hu => ⟨?_, hu.2⟩
      rcases hu.1 with ⟨_, hregion⟩ | ⟨_, hcapacity⟩
      · exact (congrArg Region.capacity hregion).trans_le hs.capacity_le
      · exact hcapacity.trans_le ht.len_le
    · have hcopied := Sequence.copyFrom_evolves_own (E := E) (Q := fun _ => True)
        (P := fun r => r.capacity ≤ Size.limit) hforeign (fun _ _ => trivial) hs.capacity_le
        (fun _ => Nat.le_refl _) (fun r hr _ => hr.trans_le ht.len_le) (.refl ws.world)
      exact hcopied.always_imp fun u hu => ⟨hu.1.2, hu.2⟩
  · intro s t hpair
    obtain ⟨_, hc, hd⟩ := pair?_of_some hpair
    have hs := h.bits hc
    have ht := h.bits hd
    have hwords : Word.wordsFor t.len ≤ t.words.size := Word.wordsFor_le.mpr ht.sound.valid.len_le
    by_cases hforeign : s.handle.Foreign t.handle
    · have hcopied := BitSequence.copyFrom_evolves_foreign (Q := fun _ => True) hforeign
        (fun _ _ => trivial) (fun _ _ => trivial) (Nat.le_refl _) (.refl ws.world)
      refine hcopied.always_imp fun u hu => ⟨?_, hu.2⟩
      rcases hu.1 with ⟨_, hregion⟩ | ⟨_, hsize⟩
      · exact (congrArg (Region.capacity · * Word.size) hregion).trans_le hs.capacity_le
      · exact (Nat.mul_le_mul_right _ (hsize.trans hwords)).trans ht.capacity_le
    · have hcopied := BitSequence.copyFrom_evolves_own (Q := fun _ => True)
        (P := fun r => r.capacity * Word.size ≤ Size.limit) hforeign (fun _ _ => trivial) hs.capacity_le
        (fun _ => Nat.le_refl _)
        (fun r hr _ => (Nat.mul_le_mul_right _ (hr.trans_le hwords)).trans ht.capacity_le) (.refl ws.world)
      exact hcopied.always_imp fun u hu => ⟨hu.1.2, hu.2⟩

theorem Counted.moveFrom_advances (a b : Nat) :
    Advances (fun _ => True) Container.Counted ws (ws.perform E (.moveFrom a b)).2.2 := by
  refine Workspace.moveFrom_advances h.capacity_le ?_ ?_
  · intro s t hpair
    obtain ⟨_, hc, hd⟩ := pair?_of_some hpair
    have hs := h.elements hc
    have ht := h.elements hd
    have hmoved := Sequence.moveFrom_evolves (s := s) (Q := fun _ => True)
      (P := fun r => r.capacity ≤ Size.limit) (fun _ _ => trivial) hs.capacity_le
      (Nat.le_refl (E.bytes * t.len)) (fun _ => ht.capacity_le)
      (fun _ r hr => hr.trans_le ht.countable.len_le) (.refl ws.world)
    refine hmoved.always_imp fun u hu => ⟨⟨hu.1.1.2, ?_⟩, hu.1.2⟩
    exact (Region.capacity_le_of_left hu.2.2).trans ht.capacity_le
  · intro s t hpair
    obtain ⟨_, hc, hd⟩ := pair?_of_some hpair
    have hs := h.bits hc
    have ht := h.bits hd
    have hwords : Word.wordsFor t.len ≤ t.words.size := Word.wordsFor_le.mpr ht.sound.valid.len_le
    have hmoved := BitSequence.moveFrom_evolves (s := s) (Q := fun _ => True)
      (P := fun r => r.capacity * Word.size ≤ Size.limit) (fun _ _ => trivial) hs.capacity_le
      (Nat.le_refl (Word.shape.bytes * Word.wordsFor t.len)) (fun _ => ht.capacity_le)
      (fun _ r hr => (Nat.mul_le_mul_right _ (hr.trans hwords)).trans ht.capacity_le) (.refl ws.world)
    refine hmoved.always_imp fun u hu => ⟨⟨hu.1.1.2, ?_⟩, hu.1.2⟩
    exact (Nat.mul_le_mul_right _ (Region.capacity_le_of_left hu.2.2)).trans ht.capacity_le

/-- **Step.**  A command leaves containers with capacities that a size can express. -/
theorem Counted.perform_advances (command : Command σ α) :
    Advances (fun _ => True) Container.Counted ws (ws.perform E command).2.2 := by
  cases command with
  | create a recipe handle =>
      exact made_advances h.capacity_le (recipe.yields_create (fun _ _ => trivial) (Nat.le_refl _))
        fun _ hc => hc.2.counted
  | createBits a recipe handle =>
      exact made_advances h.capacity_le
        (recipe.yields_createBits (E := E) (fun _ _ => trivial) (Nat.le_refl _)) fun _ hc => hc.2.counted
  | edit a e => exact h.edit_advances a e
  | editBits a e => exact h.editBits_advances a e
  | copy a b =>
      refine copy_cases (P := fun result => Advances _ _ ws result.2.2) (advances_refl h.capacity_le)
        fun c hc => ?_
      exact made_advances h.capacity_le
        (Container.yields_copy (fun _ _ => trivial) (h.sound.valid a c hc) (Nat.le_refl _))
        fun d hd => hd.capacity.trans (h.capacity_le a c hc)
  | copyDemanded a b =>
      refine copyDemanded_cases (P := fun result => Advances _ _ ws result.2.2) (advances_refl h.capacity_le)
        fun c hc => ?_
      exact made_advances h.capacity_le
        (Container.yields_copyDemanded (fun _ _ => trivial) (h.sound.valid a c hc) (Nat.le_refl _))
        fun d hd => hd.capacity.trans (h.capacity_le a c hc)
  | copyFrom a b => exact h.copyFrom_advances a b
  | moveFrom a b => exact h.moveFrom_advances a b
  | discard a => exact discard_advances (fun _ _ _ => trivial) h.capacity_le
  | drain a moves => exact drain_advances (fun _ _ _ => trivial) moves h.capacity_le
  | setPolicy place policy => exact advances_world h.capacity_le (.of_eq rfl rfl)
  | setCode code => exact advances_world h.capacity_le (.of_eq rfl rfl)

/-- **Step.**  Every container of a workspace can be counted after a command. -/
theorem Counted.run (command : Command σ α) : Counted E (ws.run E command).2 :=
  ⟨run_sound command h.sound, ((h.perform_advances command).run fun _ _ _ => trivial).holds⟩

/-- **Run.**  A program leaves containers with capacities that a size can express. -/
theorem Counted.runAll (commands : List (Command σ α)) : Counted E (ws.runAll E commands).2 := by
  induction commands generalizing ws with
  | nil => exact h
  | cons command rest ih => exact ih (h.run command)

end Step

/-- There is nothing to count at first. -/
theorem counted_initial (registers : Nat) (accounts : List Account) (code : σ) :
    Counted E (initial registers accounts code : Workspace σ α) := by
  refine ⟨sound_initial registers accounts code, fun a c hc => ?_⟩
  rw [container?_initial] at hc
  cases hc

end Workspace

end Growable
