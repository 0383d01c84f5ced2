import Growable.Proofs.Program.Steps

/-!
# Bit sequences refine plain lists

Each command does to the bits of the bit sequences what it does to plain lists
(`Workspace.perform_steps_bits`), and so does every program (`Workspace.bitSequences_refine_lists`).
-/

namespace Growable

variable {σ α β : Type} {E : Element σ α} {w : World σ α} {m : Multiset (Asset α)}

/-! ## Edits -/

namespace BitSequence

variable {s : BitSequence}

/-- An operation that says what becomes of the bits, and keeps the sequence sound. -/
theorem refining_of_soundly {o : Outcome (BitSequence × World σ α) β} {reference : Outcome (List Bool) β}
    {left : List Bool → Prop} (h : o.Meets (soundly m (refining bits reference left))) :
    o.Meets (refining (fun u => u.1.bits) reference left) :=
  h.imp (fun _ _ hu => hu.2) (fun _ _ hu => hu.2) fun _ _ hu => hu.2

/-- A change of the capacity alone changes nothing in the list. -/
theorem resized_follows {room : Nat → Prop} {o : Outcome (BitSequence × World σ α) Unit}
    (h : o.Meets (soundly m (resized s room))) : o.Meets (follows m s (pure ())) := by
  apply h.imp
  · intro _ u hu
    obtain ⟨hu, hsame, hlen, _⟩ := hu
    exact follows_done rfl hu (bits_eq_of_same hlen fun i _ => hsame i)
  · exact fun e u hu => follows_lack (Outcome.accepted_done _ _) hu.1 hu.2.1 (congrArg bits hu.2.2)
  · exact fun _ _ hu => hu.2.elim

end BitSequence

open BitSequence in
/-- Every operation on a bit sequence does to the bits what it does to a list. -/
theorem BitEdit.perform_refines {s : BitSequence} (e : BitEdit)
    (hs : BitSequence.Sound m (s, w)) :
    ((e.perform : BitAct σ α (Answer α)) (s, w)).Meets
      (refining (fun u => u.1.bits) (e.onList s.bits) (e.LeftByLack s.bits)) := by
  cases e with
  | reserve capacity =>
      exact (refining_of_soundly (resized_follows (reserve_meets capacity hs))).answered _
  | reserveMore additional =>
      exact (refining_of_soundly (resized_follows (reserveMore_meets additional hs))).answered _
  | shrink => exact (refining_of_soundly (resized_follows (shrink_meets hs))).answered _
  | push value => exact (refining_of_soundly (push_meets value hs)).answered _
  | pop => exact (refining_of_soundly (pop_meets hs)).answered _
  | insert position value => exact (refining_of_soundly (insert_meets position value hs)).answered _
  | erase index => exact (refining_of_soundly (erase_meets index hs)).answered _
  | truncate n => exact (refining_of_soundly (truncate_mirrors n hs)).answered _
  | clear => exact (refining_of_soundly (clear_mirrors hs)).answered _
  | resize n value => exact (refining_of_soundly (resize_meets n value hs)).answered _
  | insertCopies position count value =>
      exact (refining_of_soundly (insertCopies_meets position count value hs)).answered _
  | insertAll position values =>
      exact (refining_of_soundly (insertAll_meets position values hs)).answered _
  | insertFeed position feed =>
      exact (refining_of_soundly (insertFeed_meets position feed hs)).answered _
  | extendAll values => exact (refining_of_soundly (extendAll_meets values hs)).answered _
  | extendFeed feed => exact (refining_of_soundly (extendFeed_meets feed hs)).answered _
  | eraseSpan span => exact (refining_of_soundly (eraseSpan_meets span hs)).answered _
  | assignCopies count value =>
      exact (refining_of_soundly (assignCopies_meets count value hs)).answered _
  | assignAll values => exact (refining_of_soundly (assignAll_meets values hs)).answered _
  | assignFeed feed => exact (refining_of_soundly (assignFeed_meets feed hs)).answered _
  | get index => exact (refining_of_soundly (get_meets index hs)).answered _
  | set index value => exact (refining_of_soundly (set_meets index value hs)).answered _
  | change index changes => exact (refining_of_soundly (change_meets index changes hs)).answered _

/-! ## Commands -/

namespace Recipe

/-- What a recipe of elements makes is no bit sequence. -/
theorem IsMade.bits?_eq_none {recipe : Recipe α} {slot : Option (Container α)}
    (h : recipe.IsMade E slot) : slot.bind Container.bits? = none := by
  unfold IsMade at h
  split at h
  · rfl
  · rfl
  · exact h.elim

/-- What a recipe of bits makes has the bits of the recipe, and there is none if it has none. -/
theorem IsMadeOfBits.bits?_eq {recipe : Recipe Bool} {slot : Option (Container α)}
    (h : recipe.IsMadeOfBits slot) :
    ∃ made, recipe.members = .ok made ∧ slot.map Container.bits? = made.map some := by
  unfold IsMadeOfBits at h
  split at h
  · rename_i hmembers
    exact ⟨_, hmembers, by rw [← h]; rfl⟩
  · rename_i hmembers
    exact ⟨_, hmembers, rfl⟩
  · exact h.elim

end Recipe

namespace Workspace

variable {ws : Workspace σ α} {a b : Nat}

/-- The list of bits is a reading of the containers that every way to make one agrees with. -/
theorem reads_bits : Reads E Container.bits? := by
  constructor
  · intro c slot h
    cases c with
    | elements s =>
        rcases slot with _ | d
        · exact h.elim
        · cases d with
          | elements t => exact ⟨_, rfl, rfl⟩
          | bits t => exact h.elim
    | bits s =>
        rcases slot with _ | d
        · exact h.elim
        · cases d with
          | elements t => exact h.elim
          | bits t => exact ⟨_, rfl, congrArg some h⟩
  · intro c xs f h
    cases c with
    | elements s => cases h
    | bits s => exact id

/-- Only a bit sequence has a list of bits. -/
theorem exists_bits {c : Container α} {xs : List Bool} (h : c.bits? = some xs) : ∃ s, c = .bits s := by
  cases c with
  | elements s => cases h
  | bits s => exact ⟨s, rfl⟩

/-- To copy over a bit sequence is to assign its list. -/
theorem copyFrom_steps_bits (hs : Sound E 0 ws) (a b : Nat) :
    let result := ws.perform E (.copyFrom a b)
    Step (ws.lists Container.bits?) (.copyFrom a b) result.1
      (result.2.2.lists Container.bits?) := by
  intro result
  cases hpair : ws.pair? a b with
  | none =>
      simp only [result, perform, hpair]
      exact .copyFromVacant (lists_of_pair hpair)
  | some pair =>
      obtain ⟨c, d⟩ := pair
      obtain ⟨hne, hc, hd⟩ := pair?_of_some hpair
      have ha := lists_of_some Container.bits? hc
      have hb := lists_of_some Container.bits? hd
      cases d with
      | elements t =>
          simp only [result, perform, hpair, perform.keep]
          cases c with
          | elements s =>
              rw [(edited_withSequence _).lists_eq fun _ => rfl]
              exact .copyFromOther ha hb
          | bits s =>
              rw [withSequence_of_none (sequence?_of_bits hc)]
              exact .copyFromVacant (.inr (.inr hb))
      | bits t =>
          have ht : t.Valid := hs.valid b _ hd
          simp only [result, perform, hpair, perform.keep]
          apply Step.copiedFrom hne hb
          refine (edited_withBits _).steps (fun _ => rfl) (fun _ _ => exists_bits) hs fun s hvalid howns => ?_
          have hcopy := BitSequence.refining_of_soundly (BitSequence.copyFrom_meets ht ⟨hvalid, howns⟩)
          exact ⟨_, rfl, hcopy.answered fun _ => .nothing⟩

/-- To move a bit sequence is to move its list. -/
theorem moveFrom_steps_bits (hs : Sound E 0 ws) (a b : Nat) :
    let result := ws.perform E (.moveFrom a b)
    Step (ws.lists Container.bits?) (.moveFrom a b) result.1
      (result.2.2.lists Container.bits?) := by
  intro result
  cases hpair : ws.pair? a b with
  | none =>
      simp only [result, perform, hpair]
      exact .moveVacant (lists_of_pair hpair)
  | some pair =>
      obtain ⟨c, d⟩ := pair
      obtain ⟨hne, hc, hd⟩ := pair?_of_some hpair
      have ha := lists_of_some Container.bits? hc
      have hb := lists_of_some Container.bits? hd
      cases d with
      | elements t =>
          simp only [result, perform, hpair, perform.keep]
          cases c with
          | elements s =>
              rw [withSequences_of_some hne (sequence?_of_elements hc) (sequence?_of_elements hd)]
              have hunseen : ∀ s : Sequence α, Container.bits? (.elements s) = none := fun _ => rfl
              exact (lists_put_unseen hunseen hne hc hd _ _).symm ▸ .moveOther ha hb
          | bits s =>
              rw [withSequences_of_none (sequence?_of_bits hc)]
              exact .moveVacant (.inr (.inr hb))
      | bits t =>
          simp only [result, perform, hpair, perform.keep]
          cases c with
          | elements s =>
              rw [withBitSequences_of_none (bitSequence?_of_elements hc)]
              exact .moveVacant (.inr (.inl ha))
          | bits s =>
              obtain ⟨hvalid, hvalid', howns⟩ := hs.parts_pair hne hc hd
              have hpair' : BitSequence.SoundPair _ ((s, t), ws.world) := ⟨hvalid, hvalid', howns⟩
              rw [withBitSequences_of_some hne (bitSequence?_of_bits hc) (bitSequence?_of_bits hd)]
              apply move_steps (fun _ => rfl) hne hc hd
              rw [Act.bind_meets]
              exact (BitSequence.moveFrom_meets hpair').imp (fun _ _ hu => ⟨rfl, hu.2⟩)
                (fun _ _ hu => hu.2) fun _ _ => id

/-- **Step.**  A command does to the bits what it does to lists. -/
theorem perform_steps_bits (command : Command σ α) (hs : Sound E 0 ws) :
    let result := ws.perform E command
    Step (ws.lists Container.bits?) command.toBits result.1 (result.2.2.lists Container.bits?) := by
  have howns : ws.world.Owns (ws.assets E) := hs.owns.of_eq (add_zero _)
  intro result
  cases command with
  | create a recipe handle =>
      exact store_displaces (recipe.create_meets handle howns) fun _ h => h.bits?_eq_none
  | createBits a recipe handle =>
      have hcreate := recipe.createBits_meets (E := E) handle howns
      rcases store_makes a hcreate fun _ h => h.bits?_eq with hstep | ⟨f, hf, hfault⟩
      · exact hstep
      · exact makes_raised hf hfault
  | edit a e =>
      have hsame : result.2.2.lists Container.bits? = ws.lists Container.bits? :=
        (edited_withSequence (e.perform E)).lists_eq fun _ => rfl
      exact hsame ▸ .left
  | editBits a e =>
      exact (edited_withBits _).steps (fun _ => rfl) (fun _ _ => exists_bits) hs
        fun s hvalid howns => ⟨_, rfl, e.perform_refines ⟨hvalid, howns⟩⟩
  | copy a b => exact copy_steps reads_bits hs a b
  | copyDemanded a b => exact copyDemanded_steps reads_bits hs a b
  | copyFrom a b => exact copyFrom_steps_bits hs a b
  | moveFrom a b => exact moveFrom_steps_bits hs a b
  | discard a => exact discard_steps reads_bits hs a
  | drain a moves =>
      have hsame : result.2.2.lists Container.bits? = ws.lists Container.bits? :=
        lists_drain a moves fun _ => rfl
      exact hsame ▸ .left
  | setPolicy place policy => exact .left
  | setCode code => exact .left

/-- Every program does to the bits of bit sequences what it does to plain lists, step by step, with the
same responses; whatever the allocators refuse, whichever handles are used, and whatever happens to other
containers meanwhile. -/
theorem bitSequences_refine_lists (E : Element σ α) (registers : Nat) (accounts : List Account)
    (code : σ) (commands : List (Command σ α)) :
    let result := runAll E (initial registers accounts code) commands
    Runs Command.toBits (List.replicate registers none) commands result.1
      (result.2.lists Container.bits?) := by
  have hruns := runAll_runs (fun _ command => perform_steps_bits command) commands
    (sound_initial (E := E) registers accounts code)
  rw [lists_initial] at hruns
  exact hruns

end Workspace

end Growable
