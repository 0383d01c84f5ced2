import Growable.Proofs.Program.Steps

/-!
# Sequences refine plain lists

Where the elements are `Faithful`, each command does to the elements of the sequences what it does to
plain lists (`Workspace.perform_steps_items`), and so does every program
(`Workspace.sequences_refine_lists`).
-/

namespace Growable

variable {σ α : Type} {E : Element σ α} {w : World σ α} {m : Multiset (Asset α)}

/-! ## Edits -/

open Sequence in
/-- Every operation on a sequence of well-behaved elements does to these what it does to a list. -/
theorem Edit.perform_refines {s : Sequence α} (e : Edit α) (hE : E.Faithful)
    (hs : Sequence.Sound E m (s, w)) :
    ∃ fresh : Nat → α, (∀ k, CanYield E.onDefault (fresh k)) ∧
      (e.perform E (s, w)).Meets
        (refining (fun u => u.1.items) (e.onList fresh s.items) (e.LeftByLack s.items)) := by
  -- The default elements matter only where some are made.
  obtain ⟨default, hdefault⟩ := hE.default w.code
  have hfresh : ∀ k : Nat, CanYield E.onDefault ((fun _ => default) k) := fun _ => ⟨w.code, hdefault⟩
  cases e with
  | resizeDefault n =>
      obtain ⟨fresh, hyield, hresize⟩ := resizeDefault_follows n hE hs
      exact ⟨fresh, hyield, hresize.answered _⟩
  | get index =>
      refine ⟨_, hfresh, ?_⟩
      have hget := (get_follows (s := s) (w := w) index).answered Answer.element
      simp only [perform, Act.bind_meets] at hget ⊢
      exact hget
  | reserve capacity =>
      exact ⟨_, hfresh, (resized_follows hE (reserve_meets capacity hs)).answered _⟩
  | reserveMore additional =>
      exact ⟨_, hfresh, (resized_follows hE (reserveMore_meets additional hs)).answered _⟩
  | shrink => exact ⟨_, hfresh, (resized_follows hE (shrink_meets hs)).answered _⟩
  | push x => exact ⟨_, hfresh, (push_follows x hE hs).answered _⟩
  | pushBy maker => exact ⟨_, hfresh, (pushBy_follows maker hE hs).answered _⟩
  | pop => exact ⟨_, hfresh, (pop_follows hE hs).answered _⟩
  | insert position x => exact ⟨_, hfresh, (insert_follows position x hE hs).answered _⟩
  | insertBy position maker =>
      exact ⟨_, hfresh, (insertBy_follows position maker hE hs).answered _⟩
  | erase index => exact ⟨_, hfresh, (erase_follows index hE hs).answered _⟩
  | truncate n => exact ⟨_, hfresh, (truncate_follows n hE hs).answered _⟩
  | clear => exact ⟨_, hfresh, (truncate_follows 0 hE hs).answered _⟩
  | resize n x => exact ⟨_, hfresh, (resize_follows n x hE hs).answered _⟩
  | resizeBy n maker => exact ⟨_, hfresh, (resizeBy_follows n maker hE hs).answered _⟩
  | insertCopies position count x =>
      exact ⟨_, hfresh, (insertCopies_follows position count x hE hs).answered _⟩
  | insertAll position xs => exact ⟨_, hfresh, (insertAll_follows position xs hE hs).answered _⟩
  | insertOwn position span =>
      exact ⟨_, hfresh, (insertOwn_follows position span hE hs).answered _⟩
  | insertFeed position feed =>
      exact ⟨_, hfresh, (insertFeed_follows position feed hE hs).answered _⟩
  | extendAll xs => exact ⟨_, hfresh, (extendAll_follows xs hE hs).answered _⟩
  | extendFeed feed => exact ⟨_, hfresh, (extendFeed_follows feed hE hs).answered _⟩
  | eraseSpan span => exact ⟨_, hfresh, (eraseSpan_follows span hE hs).answered _⟩
  | assignCopies count x => exact ⟨_, hfresh, (assignCopies_follows count x hE hs).answered _⟩
  | assignAll xs => exact ⟨_, hfresh, (assignAll_follows xs hE hs).answered _⟩
  | assignFeed feed => exact ⟨_, hfresh, (assignFeed_follows feed hE hs).answered _⟩
  | exchange index x => exact ⟨_, hfresh, (exchange_follows index x hE hs).answered _⟩
  | demand index => exact ⟨_, hfresh, (demand_follows index hE hs).answered _⟩
  | exchangeDemanded index x =>
      exact ⟨_, hfresh, (exchangeDemanded_follows index x hE hs).answered _⟩
  | carry x => exact ⟨_, hfresh, (carry_follows x hE hs).answered _⟩

/-! ## Commands -/

/-- Faithful elements have no code that faults. -/
theorem Element.Faithful.not_codeRaises {f : Fault} (hE : E.Faithful) : ¬ E.CodeRaises f := by
  intro h
  cases h with
  | clone h => exact hE.not_clone h
  | overwrite h => exact hE.not_overwrite h
  | default h => exact hE.not_default h
  | drop h => exact hE.not_drop h

namespace Recipe

/-- What a recipe of bits makes is no sequence of elements. -/
theorem IsMadeOfBits.items?_eq_none {recipe : Recipe Bool} {slot : Option (Container α)}
    (h : recipe.IsMadeOfBits slot) : slot.bind Container.items? = none := by
  unfold IsMadeOfBits at h
  split at h
  · rfl
  · rfl
  · exact h.elim

/-- What a recipe of faithful elements makes has the members of the recipe. -/
theorem IsMade.items?_eq {recipe : Recipe α} {slot : Option (Container α)} (hE : E.Faithful)
    (h : recipe.IsMade E slot) :
    ∃ made, recipe.members = .ok made ∧ slot.map Container.items? = made.map some := by
  unfold IsMade at h
  split at h
  · rename_i s hmembers
    have hitems : s.items = _ := h.elim id fun hclones => hE.exact.cloned_eq hclones.2 hclones.1
    exact ⟨_, hmembers, by rw [← hitems]; rfl⟩
  · rename_i hmembers
    exact ⟨_, hmembers, rfl⟩
  · exact h.elim

end Recipe

namespace Workspace

variable {ws : Workspace σ α} {a b : Nat}

/-- The list of elements is a reading of the containers that every way to make one agrees with. -/
theorem reads_items (hE : E.Faithful) : Reads E Container.items? := by
  constructor
  · intro c slot h
    cases c with
    | elements s =>
        rcases slot with _ | d
        · exact h.elim
        · cases d with
          | elements t => exact ⟨_, rfl, congrArg some (hE.exact.cloned_eq h.2 h.1)⟩
          | bits t => exact h.elim
    | bits s =>
        rcases slot with _ | d
        · exact h.elim
        · cases d with
          | elements t => exact h.elim
          | bits t => exact ⟨_, rfl, rfl⟩
  · intro c xs f h
    cases c with
    | elements s => exact fun hf => hE.not_codeRaises (hf hE.fits)
    | bits s => cases h

/-- Only a sequence has a list of elements. -/
theorem exists_elements {c : Container α} {xs : List α} (h : c.items? = some xs) : ∃ s, c = .elements s := by
  cases c with
  | elements s => exact ⟨s, rfl⟩
  | bits s => cases h

/-- To copy over a sequence of faithful elements is to assign its list. -/
theorem copyFrom_steps_items (hE : E.Faithful) (hs : Sound E 0 ws) (a b : Nat) :
    let result := ws.perform E (.copyFrom a b)
    Step (ws.lists Container.items?) (.copyFrom a b) result.1
      (result.2.2.lists Container.items?) := by
  intro result
  cases hpair : ws.pair? a b with
  | none =>
      simp only [result, perform, hpair]
      exact .copyFromVacant (lists_of_pair hpair)
  | some pair =>
      obtain ⟨c, d⟩ := pair
      obtain ⟨hne, hc, hd⟩ := pair?_of_some hpair
      have ha := lists_of_some Container.items? hc
      have hb := lists_of_some Container.items? hd
      cases d with
      | elements t =>
          simp only [result, perform, hpair, perform.keep]
          apply Step.copiedFrom hne hb
          refine (edited_withSequence _).steps (fun _ => rfl) (fun _ _ => exists_elements) hs
            fun s hvalid howns => ?_
          exact ⟨_, rfl, (Sequence.copyFrom_follows hE ⟨hvalid, howns⟩).answered fun _ => .nothing⟩
      | bits t =>
          simp only [result, perform, hpair, perform.keep]
          cases c with
          | elements s =>
              rw [withBits_of_none (bitSequence?_of_elements hc)]
              exact .copyFromVacant (.inr (.inr hb))
          | bits s =>
              rw [(edited_withBits _).lists_eq fun _ => rfl]
              exact .copyFromOther ha hb

/-- To move a sequence is to move its list. -/
theorem moveFrom_steps_items (hE : E.Faithful) (hs : Sound E 0 ws) (a b : Nat) :
    let result := ws.perform E (.moveFrom a b)
    Step (ws.lists Container.items?) (.moveFrom a b) result.1
      (result.2.2.lists Container.items?) := by
  intro result
  cases hpair : ws.pair? a b with
  | none =>
      simp only [result, perform, hpair]
      exact .moveVacant (lists_of_pair hpair)
  | some pair =>
      obtain ⟨c, d⟩ := pair
      obtain ⟨hne, hc, hd⟩ := pair?_of_some hpair
      have ha := lists_of_some Container.items? hc
      have hb := lists_of_some Container.items? hd
      cases d with
      | elements t =>
          simp only [result, perform, hpair, perform.keep]
          cases c with
          | elements s =>
              obtain ⟨hvalid, hvalid', howns⟩ := hs.parts_pair hne hc hd
              have hpair' : Sequence.SoundPair E _ ((s, t), ws.world) := ⟨hvalid, hvalid', howns⟩
              rw [withSequences_of_some hne (sequence?_of_elements hc) (sequence?_of_elements hd)]
              apply move_steps (fun _ => rfl) hne hc hd
              rw [Act.bind_meets]
              apply (Sequence.moveFrom_meets hpair').imp
              · exact fun _ _ hu => ⟨rfl, hu.2.1, hu.2.2.1⟩
              · exact fun _ _ hu => hu.2
              · intro f u hu
                obtain ⟨⟨x, _, hraise⟩, _⟩ := hu.2.2 hE.fits
                exact hE.not_drop hraise
          | bits s =>
              rw [withSequences_of_none (sequence?_of_bits hc)]
              exact .moveVacant (.inr (.inl ha))
      | bits t =>
          simp only [result, perform, hpair, perform.keep]
          cases c with
          | elements s =>
              rw [withBitSequences_of_none (bitSequence?_of_elements hc)]
              exact .moveVacant (.inr (.inr hb))
          | bits s =>
              rw [withBitSequences_of_some hne (bitSequence?_of_bits hc) (bitSequence?_of_bits hd)]
              have hunseen : ∀ s : BitSequence, (Container.bits s : Container α).items? = none := fun _ => rfl
              exact (lists_put_unseen hunseen hne hc hd _ _).symm ▸ .moveOther ha hb

/-- To drain a sequence is to take its list from both ends and to leave the register empty. -/
theorem drain_steps_items (hE : E.Faithful) (hs : Sound E 0 ws) (a : Nat)
    (moves : List DrainMove) :
    let result := ws.perform E (.drain a moves)
    Step (ws.lists Container.items?) (.drain a) result.1 (result.2.2.lists Container.items?) := by
  intro result
  simp only [result, perform, perform.keep]
  cases hc : ws.container? a with
  | none =>
      rw [consume_of_none (by rw [hc]; rfl)]
      exact .drainVacant (lists_of_none hc)
  | some c =>
      cases c with
      | elements s =>
          obtain ⟨hvalid, howns⟩ := hs.parts hc
          have hdrain := drainAll_meets moves hvalid howns
          rw [consume_of_some hc rfl]
          change Step _ _ _ ((ws.put a none).lists _)
          rw [lists_put]
          cases ho : drainAll E moves s ws.world with
          | done answer w' =>
              rw [ho] at hdrain
              obtain ⟨⟨answers, rfl⟩, _⟩ := hdrain
              exact .drained (lists_of_some Container.items? hc)
          | refused e w' =>
              rw [ho] at hdrain
              exact hdrain.elim
          | faulted f w' =>
              rw [ho] at hdrain
              exact absurd (hdrain.2 hE.fits) hE.not_codeRaises
      | bits s =>
          rw [consume_of_none (by rw [hc]; rfl)]
          exact .drainVacant (lists_of_some Container.items? hc)

/-- **Step.**  A command does to the elements what it does to lists. -/
theorem perform_steps_items (command : Command σ α) (hE : E.Faithful) (hs : Sound E 0 ws) :
    let result := ws.perform E command
    Step (ws.lists Container.items?) (command.toElements E) result.1
      (result.2.2.lists Container.items?) := by
  have howns : ws.world.Owns (ws.assets E) := hs.owns.of_eq (add_zero _)
  intro result
  cases command with
  | create a recipe handle =>
      have hcreate := recipe.create_meets (E := E) handle howns
      rcases store_makes a hcreate fun _ h => h.items?_eq hE with hstep | ⟨f, hf, hfault⟩
      · exact hstep
      · exact makes_raised ((hf hE.fits).resolve_left hE.not_codeRaises) hfault
  | createBits a recipe handle =>
      exact store_displaces (recipe.createBits_meets (E := E) handle howns)
        fun _ h => h.items?_eq_none
  | edit a e => 
      refine (edited_withSequence _).steps (fun _ => rfl) (fun _ _ => exists_elements) hs
        fun s hvalid howns => ?_
      obtain ⟨fresh, hfresh, hrefines⟩ := e.perform_refines hE ⟨hvalid, howns⟩
      exact ⟨_, ⟨fresh, hfresh, rfl⟩, hrefines⟩
  | editBits a e =>
      have hsame : result.2.2.lists Container.items? = ws.lists Container.items? :=
        (edited_withBits e.perform).lists_eq fun _ => rfl
      exact hsame ▸ .left
  | copy a b => exact copy_steps (reads_items hE) hs a b
  | copyDemanded a b => exact copyDemanded_steps (reads_items hE) hs a b
  | copyFrom a b => exact copyFrom_steps_items hE hs a b
  | moveFrom a b => exact moveFrom_steps_items hE hs a b
  | discard a => exact discard_steps (reads_items hE) hs a
  | drain a moves => exact drain_steps_items hE hs a moves
  | setPolicy place policy => exact .left
  | setCode code => exact .left

/-- Every program does to sequences of well-behaved elements what it does to plain lists, step by step,
with the same responses, whether there is room for the elements or new memory is needed; and no sequence
is longer than its capacity. -/
theorem sequences_refine_lists (E : Element σ α) (hE : E.Faithful) (registers : Nat)
    (accounts : List Account) (code : σ) (commands : List (Command σ α)) :
    let result := runAll E (initial registers accounts code) commands
    Runs (Command.toElements E) (List.replicate registers none) commands result.1
        (result.2.lists Container.items?) ∧
      ∀ a s, result.2.sequence? a = some s → s.len ≤ s.capacity := by
  have hs := sound_initial (α := α) (E := E) registers accounts code
  intro result
  constructor
  · have hruns := runAll_runs (fun _ command => perform_steps_items command hE) commands hs
    rw [lists_initial] at hruns
    exact hruns
  · intro a s hsome
    have hvalid := (runAll_sound commands hs).valid a _ (container?_of_sequence? hsome)
    exact Sequence.Valid.len_le hvalid

/-- An element is inserted between two others, and the last two of a copy are inserted before all. -/
theorem sequences_refine_lists_plain :
    let E : Element Unit Nat := .plain ⟨8, 8⟩ 0
    let commands : List (Command Unit Nat) :=
      [.create 0 (.ofList [1, 2]) (.of ⟨0, .shared⟩), .edit 0 (.insert 1 5), .copy 0 1,
        .edit 1 (.insertOwn 0 ⟨.included 1, .unbounded⟩)]
    let result := runAll E (initial 2 [.unlimited] ()) commands
    E.Faithful ∧ result.2.lists Container.items? = [some [1, 5, 2], some [5, 2, 1, 5, 2]] ∧
      Runs (Command.toElements E) (List.replicate 2 none) commands result.1
        (result.2.lists Container.items?) ∧
      ∀ a s, result.2.sequence? a = some s → s.len ≤ s.capacity := by
  have hlists : (runAll (Element.plain ⟨8, 8⟩ 0) (initial 2 [.unlimited] ())
      [.create 0 (.ofList [1, 2]) (.of ⟨0, .shared⟩), .edit 0 (.insert 1 5), .copy 0 1,
        .edit 1 (.insertOwn 0 ⟨.included 1, .unbounded⟩)]).2.lists Container.items?
      = [some [1, 5, 2], some [5, 2, 1, 5, 2]] := by decide +kernel
  have hfits : (⟨8, 8⟩ : Shape).Fits := by
    unfold Shape.Fits
    decide
  intro E commands result
  have hE : E.Faithful := Element.faithful_plain hfits 0
  exact ⟨hE, hlists, sequences_refine_lists E hE 2 [.unlimited] () commands⟩

end Workspace

end Growable
