import Mathlib.Algebra.BigOperators.Group.List.Basic
import Growable.Proofs.Program.Containers

/-!
# Conservation in programs

Every command keeps a workspace sound, however it ends: what its containers answer for is in custody
before and after it, and nothing else.  From this follows what becomes of the elements in any program,
whatever its closures, its iterators, the code of its elements and its allocators do.
-/

namespace Growable

variable {σ α β : Type} {E : Element σ α} {w : World σ α} {m : Multiset (Asset α)}

/-! ## Edits -/

/-- However an act in custody ends, the sequence is in custody. -/
theorem Sequence.always_sound {s : Sequence α} {act : SequenceAct σ α β}
    {post : Post (Sequence α) β} (g : β → Answer α)
    (h : (act (s, w)).Meets (Sequence.soundly E m post)) :
    ((do return g (← act) : SequenceAct σ α (Answer α)) (s, w)).Meets (.always (Sound E m)) := by
  rw [Act.bind_meets]
  exact Sequence.sound_of_soundly h

/-- However an act in custody ends, the bit sequence is in custody. -/
theorem BitSequence.always_sound {s : BitSequence} {act : BitAct σ α β} {post : Post BitSequence β}
    (g : β → Answer α) (h : (act (s, w)).Meets (BitSequence.soundly m post)) :
    ((do return g (← act) : BitAct σ α (Answer α)) (s, w)).Meets (.always (Sound m)) := by
  rw [Act.bind_meets]
  exact BitSequence.sound_of_soundly h

open Sequence in
/-- Every operation on a sequence leaves a sound one behind, however it ends. -/
theorem Edit.perform_sound {s : Sequence α} (e : Edit α) (hs : Sequence.Sound E m (s, w)) :
    (e.perform E (s, w)).Meets (.always (Sequence.Sound E m)) := by
  cases e with
  | reserve capacity => exact always_sound (fun _ => .nothing) (reserve_meets capacity hs)
  | reserveMore additional => exact always_sound (fun _ => .nothing) (reserveMore_meets additional hs)
  | shrink => exact always_sound (fun _ => .nothing) (shrink_meets hs)
  | push x => exact always_sound (fun _ => .nothing) (push_meets x hs)
  | pushBy maker => exact always_sound (fun _ => .nothing) (pushBy_call_meets maker hs)
  | pop => exact always_sound .ofElement? (pop_meets hs)
  | insert position x => exact always_sound (fun _ => .nothing) (insert_meets position x hs)
  | insertBy position maker =>
      exact always_sound (fun _ => .nothing) (insertBy_call_meets position maker hs)
  | erase index => exact always_sound .element (erase_meets index hs)
  | truncate n => exact always_sound (fun _ => .nothing) (truncate_meets n hs)
  | clear => exact always_sound (fun _ => .nothing) (truncate_meets 0 hs)
  | resize n x => exact always_sound (fun _ => .nothing) (resize_meets n x hs)
  | resizeDefault n =>
      exact always_sound (fun _ => .nothing)
        (resizeMade_meets n hs fun _ _ => E.default_produces)
  | resizeBy n maker =>
      exact always_sound (fun _ => .nothing)
        (resizeMade_meets n hs fun k _ => maker.produces k)
  | insertCopies position count x =>
      exact always_sound (fun _ => .nothing) (insertCopies_meets position count x hs)
  | insertAll position xs => exact always_sound (fun _ => .nothing) (insertAll_meets position xs hs)
  | insertOwn position span =>
      exact always_sound (fun _ => .nothing) (insertOwn_meets position span hs)
  | insertFeed position feed =>
      exact always_sound (fun _ => .nothing) (insertFeed_meets position feed hs)
  | extendAll xs => exact always_sound (fun _ => .nothing) (extendAll_meets xs hs)
  | extendFeed feed => exact always_sound (fun _ => .nothing) (insertFeed_meets s.len feed hs)
  | eraseSpan span => exact always_sound (fun _ => .nothing) (eraseSpan_meets span hs)
  | assignCopies count x => exact always_sound (fun _ => .nothing) (assignCopies_meets count x hs)
  | assignAll xs => exact always_sound (fun _ => .nothing) (assignAll_meets xs hs)
  | assignFeed feed => exact always_sound (fun _ => .nothing) (assignFeed_meets feed hs)
  | get index =>
      simp only [perform, Act.bind_meets, Act.held_meets, Act.ofExcept_meets, Act.pure_meets]
      exact ⟨fun _ _ => hs, fun _ _ => hs⟩
  | exchange index x => exact always_sound .element (exchange_meets index x hs)
  | demand index => exact always_sound .element (demand_meets index hs)
  | exchangeDemanded index x => exact always_sound .element (exchangeDemanded_meets index x hs)
  | carry x => exact always_sound .element (carry_meets x hs)

open BitSequence in
/-- Every operation on a bit sequence leaves a sound one behind, however it ends. -/
theorem BitEdit.perform_sound {s : BitSequence} (e : BitEdit) (hs : BitSequence.Sound m (s, w)) :
    ((e.perform : BitAct σ α (Answer α)) (s, w)).Meets (.always (BitSequence.Sound m)) := by
  cases e with
  | reserve capacity => exact always_sound (fun _ => .nothing) (reserve_meets capacity hs)
  | reserveMore additional => exact always_sound (fun _ => .nothing) (reserveMore_meets additional hs)
  | shrink => exact always_sound (fun _ => .nothing) (shrink_meets hs)
  | push value => exact always_sound (fun _ => .nothing) (push_meets value hs)
  | pop => exact always_sound .ofBit? (pop_meets hs)
  | insert position value => exact always_sound (fun _ => .nothing) (insert_meets position value hs)
  | erase index => exact always_sound .bit (erase_meets index hs)
  | truncate n => exact always_sound (fun _ => .nothing) (truncate_mirrors n hs)
  | clear => exact always_sound (fun _ => .nothing) (clear_mirrors hs)
  | resize n value => exact always_sound (fun _ => .nothing) (resize_meets n value hs)
  | insertCopies position count value =>
      exact always_sound (fun _ => .nothing) (insertCopies_meets position count value hs)
  | insertAll position values =>
      exact always_sound (fun _ => .nothing) (insertAll_meets position values hs)
  | insertFeed position feed =>
      exact always_sound (fun _ => .nothing) (insertFeed_meets position feed hs)
  | extendAll values => exact always_sound (fun _ => .nothing) (extendAll_meets values hs)
  | extendFeed feed => exact always_sound (fun _ => .nothing) (extendFeed_meets feed hs)
  | eraseSpan span => exact always_sound (fun _ => .nothing) (eraseSpan_meets span hs)
  | assignCopies count value =>
      exact always_sound (fun _ => .nothing) (assignCopies_meets count value hs)
  | assignAll values => exact always_sound (fun _ => .nothing) (assignAll_meets values hs)
  | assignFeed feed => exact always_sound (fun _ => .nothing) (assignFeed_meets feed hs)
  | get index => exact always_sound .bit (get_meets index hs)
  | set index value => exact always_sound .ofBit? (set_meets index value hs)
  | change index changes => exact always_sound .bits (change_meets index changes hs)

/-! ## Commands -/

namespace Workspace

variable {ws : Workspace σ α} {a b : Nat}

/-- A container that was replaced is valid and in custody, beside a sound workspace. -/
structure Settles (E : Element σ α) (result : Response α × Option (Container α) × Workspace σ α) :
    Prop where
  replaced : ∀ c, result.2.1 = some c → c.Valid E
  sound : Sound E (slotAssets E result.2.1) result.2.2

/-- A workspace in custody may stay as it is. -/
theorem Sound.settles (hs : Sound E 0 ws) (response : Response α) :
    Settles E (response, none, ws) := by
  refine ⟨fun c hc => ?_, hs⟩
  cases hc

/-- A new container takes over what was made for it. -/
theorem store_settles {act : Act (World σ α) (Option (Container α))}
    {Q : Option (Container α) → Prop} {G : Fault → Prop} (hs : Sound E 0 ws)
    (h : (act ws.world).Meets (Container.made E (ws.assets E) Q G)) :
    Settles E (ws.store a act) := by
  have hlost : ∀ w : World σ α, w.Owns (ws.assets E) → Sound E 0 { ws with world := w } :=
    fun w h => hs.with_world (h.of_eq (add_zero _).symm)
  have hstores := store_spec (a := a) h
  generalize ws.store a act = result at hstores
  cases hstores with
  | vacant _ => exact hs.settles _
  | @stored c w ha hc =>
      refine ⟨fun d hd => hs.valid a d hd, hs.put ha hc.valid (hc.owns.of_eq ?_)⟩
      have hput := assets_put (E := E) (ws.container? a) ha
      rw [put_container? ha] at hput
      rw [hput, add_comm (slotAssets E (ws.container? a))]
  | invalid _ hnone =>
      exact (hlost _ (hnone.owns.of_eq (zero_add _))).settles _
  | refused _ he => exact (hlost _ he.2).settles _
  | faulted _ hf => exact (hlost _ hf.1).settles _

/-- A container may be replaced by one that owns what is held for the register. -/
theorem Sound.put_some {c d : Container α} {w : World σ α} (hs : Sound E 0 ws)
    (hc : ws.container? a = some c) (hd : d.Valid E)
    (h : w.Owns (d.assets E + ((ws.put a none).assets E + 0))) :
    Sound E 0 { ws.put a (some d) with world := w } := by
  apply hs.put (lt_of_container? hc) _ h
  rintro _ ⟨⟩
  exact hd

theorem Sound.put_some_pair {c d x y : Container α} {w : World σ α} (hs : Sound E 0 ws) (hne : a ≠ b)
    (hc : ws.container? a = some c) (hd : ws.container? b = some d) (hx : x.Valid E) (hy : y.Valid E)
    (h : w.Owns (x.assets E + (y.assets E + (((ws.put a none).put b none).assets E + 0)))) :
    Sound E 0 { (ws.put a (some x)).put b (some y) with world := w } := by
  apply hs.put_pair hne (lt_of_container? hc) (lt_of_container? hd) _ _ h
  · rintro _ ⟨⟩
    exact hx
  · rintro _ ⟨⟩
    exact hy

/-- An act that keeps the container in a register sound keeps the workspace sound. -/
theorem Edited.sound {S : Type} {into : S → Container α} {act : Act (S × World σ α) (Answer α)}
    {result : Response α × Workspace σ α} (h : Edited into ws a act result) (hs : Sound E 0 ws)
    (hact : ∀ s, (into s).Valid E → ws.world.Owns ((into s).assets E + ((ws.put a none).assets E + 0)) →
      (act (s, ws.world)).Meets (.always fun u => (into u.1).Valid E ∧
        u.2.Owns ((into u.1).assets E + ((ws.put a none).assets E + 0)))) : Sound E 0 result.2 := by
  cases h with
  | vacant _ => exact hs
  | found hc ho =>
      obtain ⟨hvalid, howns⟩ := hs.parts hc
      obtain ⟨hvalid', howns'⟩ := Outcome.meets_always.mp (ho ▸ hact _ hvalid howns)
      exact hs.put_some hc hvalid' howns'

/-- A container that is used up leaves an empty register and nothing that it owned. -/
theorem consume_sound {act : Container α → Option (Act (World σ α) (Answer α))}
    (hs : Sound E 0 ws)
    (h : ∀ c act', act c = some act' → c.Valid E →
      ws.world.Owns (c.assets E + ((ws.put a none).assets E + 0)) →
      (act' ws.world).Meets (.always fun w' => w'.Owns ((ws.put a none).assets E + 0))) :
    Sound E 0 (ws.consume a act).2 := by
  refine consume_cases (P := fun result => Sound E 0 result.2) act hs ?_
  intro c act' hc hact
  obtain ⟨hvalid, howns⟩ := hs.parts hc
  have hleft := Outcome.meets_always.mp (h c act' hact hvalid howns)
  exact hs.put (lt_of_container? hc) nofun (hleft.of_eq (zero_add _).symm)

/-- A copy leaves both registers in custody. -/
theorem copyFrom_settles (a b : Nat) (hs : Sound E 0 ws) :
    Settles E (ws.perform E (.copyFrom a b)) := by
  refine copyFrom_cases (P := Settles E) (hs.settles _) ?_ ?_
  · intro s t hpair o ho
    obtain ⟨_, hc, _⟩ := pair?_of_some hpair
    obtain ⟨hvalid, howns⟩ := hs.parts hc
    have hsound : Sequence.Sound E _ o.state := ho ▸ Outcome.meets_always.mp
      (Sequence.always_sound _ (Sequence.copyFrom_meets ⟨hvalid, howns⟩))
    refine Sound.settles ?_ _
    exact hs.put_some hc hsound.valid hsound.owns
  · intro s t hpair o ho
    obtain ⟨_, hc, hd⟩ := pair?_of_some hpair
    obtain ⟨hvalid, howns⟩ := hs.parts hc
    have hsound : BitSequence.Sound _ o.state := ho ▸ Outcome.meets_always.mp
      (BitSequence.always_sound _ (BitSequence.copyFrom_meets (hs.valid b _ hd) ⟨hvalid, howns⟩))
    refine Sound.settles ?_ _
    exact hs.put_some hc hsound.valid hsound.owns

/-- A move leaves both registers in custody. -/
theorem moveFrom_settles (a b : Nat) (hs : Sound E 0 ws) :
    Settles E (ws.perform E (.moveFrom a b)) := by
  refine moveFrom_cases (P := Settles E) (hs.settles _) ?_ ?_
  · intro s t hpair o ho
    obtain ⟨hne, hc, hd⟩ := pair?_of_some hpair
    obtain ⟨hvalid, hvalid', howns⟩ := hs.parts_pair hne hc hd
    have hmoved := Sequence.SoundPair.moved ⟨hvalid, hvalid', howns⟩
    have hsound : Sequence.SoundPair E _ o.state :=
      ho ▸ Outcome.meets_always.mp (Act.answer_meets_always hmoved)
    refine Sound.settles ?_ _
    exact hs.put_some_pair hne hc hd hsound.first hsound.second hsound.owns
  · intro s t hpair o ho
    obtain ⟨hne, hc, hd⟩ := pair?_of_some hpair
    obtain ⟨hvalid, hvalid', howns⟩ := hs.parts_pair hne hc hd
    have hmoved := BitSequence.SoundPair.moved ⟨hvalid, hvalid', howns⟩
    have hsound : BitSequence.SoundPair _ o.state :=
      ho ▸ Outcome.meets_always.mp (Act.answer_meets_always hmoved)
    refine Sound.settles ?_ _
    exact hs.put_some_pair hne hc hd hsound.first hsound.second hsound.owns

/-- **Step.**  A command leaves a sound workspace, beside the container that it replaced. -/
theorem perform_settles (command : Command σ α) (hs : Sound E 0 ws) :
    Settles E (ws.perform E command) := by
  have howns : ws.world.Owns (ws.assets E) := hs.owns.of_eq (add_zero _)
  cases command with
  | create a recipe handle => exact store_settles hs (recipe.create_meets handle howns)
  | createBits a recipe handle => exact store_settles hs (recipe.createBits_meets handle howns)
  | edit a e =>
      refine ((edited_withSequence _).sound hs fun s hvalid howns' => ?_).settles _
      exact (e.perform_sound ⟨hvalid, howns'⟩).always_imp fun _ hu => ⟨hu.valid, hu.owns⟩
  | editBits a e =>
      refine ((edited_withBits _).sound hs fun s hvalid howns' => ?_).settles _
      exact (e.perform_sound ⟨hvalid, howns'⟩).always_imp fun _ hu => ⟨hu.valid, hu.owns⟩
  | copy a b =>
      refine copy_cases (P := Settles E) (hs.settles _) fun c hc => ?_
      exact store_settles hs (Container.copy_meets (hs.valid a c hc) howns)
  | copyDemanded a b =>
      refine copyDemanded_cases (P := Settles E) (hs.settles _) fun c hc => ?_
      exact store_settles hs (Container.copyDemanded_meets (hs.valid a c hc) howns)
  | copyFrom a b => exact copyFrom_settles a b hs
  | moveFrom a b => exact moveFrom_settles a b hs
  | discard a =>
      apply (consume_sound hs fun c act' hact hc h => ?_).settles
      cases hact
      exact discardOne_owns hc h
  | drain a moves =>
      apply (consume_sound hs fun c act' hact hc h => ?_).settles
      cases c with
      | elements s =>
          cases hact
          exact drainAll_owns moves hc h
      | bits s => cases hact
  | setPolicy place policy =>
      have hsame : ∀ accounts, World.Owns { ws.world with accounts } (ws.assets E + 0) :=
        fun _ => hs.owns.of_trace rfl
      exact (hs.with_world (hsame _)).settles _
  | setCode code =>
      have hsame : World.Owns { ws.world with code } (ws.assets E + 0) := hs.owns.of_trace rfl
      exact (hs.with_world hsame).settles _

/-- **Step.**  A command leaves the workspace in custody of exactly what its containers own. -/
theorem run_sound (command : Command σ α) (hs : Sound E 0 ws) : Sound E 0 (ws.run E command).2 := by
  have hsettles := perform_settles command hs
  unfold run
  generalize ws.perform E command = result at hsettles
  obtain ⟨response, replaced, ws'⟩ := result
  obtain ⟨hreplaced, hsound⟩ := hsettles
  cases replaced with
  | none => exact hsound
  | some c =>
      have howns : ws'.world.Owns (c.assets E + (ws'.assets E + 0)) :=
        hsound.owns.of_eq (by rw [add_zero, add_comm]; rfl)
      exact hsound.with_world
        (Outcome.meets_always.mp (Container.dispose_meets (hreplaced c rfl) howns))

/-- **Run.**  Every program leaves a sound workspace. -/
theorem runAll_sound (commands : List (Command σ α)) (hs : Sound E 0 ws) :
    Sound E 0 (ws.runAll E commands).2 := by
  induction commands generalizing ws with
  | nil => exact hs
  | cons command rest ih => exact ih (run_sound command hs)

/-- A workspace that has nothing owns nothing. -/
theorem sound_initial (registers : Nat) (accounts : List Account) (code : σ) :
    Sound E 0 (initial registers accounts code : Workspace σ α) := by
  have hnone : ∀ a, (initial registers accounts code : Workspace σ α).container? a = none := by
    intro a
    rw [container?, initial, List.getElem?_replicate]
    split <;> rfl
  constructor
  · intro a c hc
    rw [hnone a] at hc
    cases hc
  · have hzero : (initial registers accounts code : Workspace σ α).assets E = 0 := by
      apply List.sum_eq_zero
      intro slot hslot
      obtain ⟨c, hc, rfl⟩ := List.mem_map.mp hslot
      rw [initial] at hc
      rw [List.eq_of_mem_replicate hc]
      rfl
    rw [hzero, add_zero]
    exact .nothing

/-! ## The elements of a workspace -/

/-- The sequences in the registers. -/
def sequences (ws : Workspace σ α) : List (Sequence α) :=
  ws.registers.filterMap fun slot =>
    match slot with
    | some (.elements s) => some s
    | _ => none

/-- The elements in custody are those of the sequences. -/
theorem filterMap_assets (E : Element σ α) (ws : Workspace σ α) :
    (ws.assets E).filterMap Asset.element? = (ws.sequences.flatMap Sequence.items : Multiset α) := by
  unfold assets sequences
  induction ws.registers with
  | nil => rfl
  | cons slot rest ih =>
      rw [List.map_cons, List.sum_cons, Multiset.filterMap_add, ih]
      cases slot with
      | none =>
          rw [slotAssets, Option.elim_none, Multiset.filterMap_zero, zero_add]
          rfl
      | some c =>
          rw [slotAssets, Option.elim_some, Container.filterMap_assets]
          cases c <;> rfl

/-- An element that has entered has departed or is in one of the sequences. -/
theorem Sound.entered_eq (hs : Sound E 0 ws) :
    entered ws.world.trace.toList
      = departed ws.world.trace.toList + (ws.sequences.flatMap Sequence.items : Multiset α) := by
  rw [← filterMap_assets E ws, ← add_zero (ws.assets E)]
  exact Custody.entered_eq hs.owns

/-- As many elements are alive as the sequences have. -/
theorem Sound.live_eq (hs : Sound E 0 ws) :
    ws.world.live = (ws.sequences.map Sequence.len).sum := by
  have hlive := World.live_eq_card (hs.owns.of_eq (add_zero _))
  rw [filterMap_assets, Multiset.coe_card, List.length_flatMap] at hlive
  exact hlive

/-! ## Discarding everything -/

/-- Discarding a container empties its register alone. -/
theorem container?_run_discard (a b : Nat) :
    (ws.run E (.discard a)).2.container? b = if b = a then none else ws.container? b := by
  have hrun : (ws.run E (.discard a)).2 = (ws.consume a fun c => some (discardOne E c)).2 := rfl
  rw [hrun, consume]
  cases hc : ws.container? a with
  | none =>
      by_cases hb : b = a
      · rw [if_pos hb, hb]
        exact hc
      · rw [if_neg hb]
        rfl
  | some c => exact container?_put none (lt_of_container? hc) b

/-- The commands that discard the containers in some registers. -/
def discards (registers : List Nat) : List (Command σ α) := registers.map .discard

/-- Discarding containers empties their registers alone. -/
theorem container?_runAll_discards (registers : List Nat) (b : Nat) :
    (ws.runAll E (discards registers)).2.container? b
      = if b ∈ registers then none else ws.container? b := by
  induction registers generalizing ws with
  | nil => simp [discards, runAll]
  | cons a rest ih =>
      have hrest := @ih (ws.run E (.discard a)).2
      rw [container?_run_discard] at hrest
      apply hrest.trans
      by_cases hb : b = a
      · simp [hb]
      · simp [hb]

/-- Empty registers have no sequences. -/
theorem sequences_eq_nil (h : ∀ a, ws.container? a = none) : ws.sequences = [] := by
  apply List.filterMap_eq_nil_iff.mpr
  intro slot hslot
  obtain ⟨a, ha, rfl⟩ := List.mem_iff_getElem.mp hslot
  have hnone := h a
  rw [container?, List.getElem?_eq_getElem ha] at hnone
  have hslot : ws.registers[a] = none := hnone
  rw [hslot]

/-- **Conservation.**  After every program, whatever faulted in it, as many elements are live as the
sequences hold; each element that was ever made by a sequence or moved into one has left the storage once,
or is held by one sequence; nothing left that had not entered before; and once all containers are
discarded, no element is live and each one has left. -/
theorem elements_conserved (E : Element σ α) (registers : Nat) (accounts : List Account) (code : σ)
    (commands : List (Command σ α)) :
    let ws := (runAll E (initial registers accounts code) commands).2
    let last := (ws.runAll E (discards (List.range ws.registers.length))).2
    ws.world.live = (ws.sequences.map Sequence.len).sum ∧
      entered ws.world.trace.toList
        = departed ws.world.trace.toList + (ws.sequences.flatMap Sequence.items : Multiset α) ∧
      (∀ start, start <+: ws.world.trace.toList → departed start ≤ entered start) ∧
      last.world.live = 0 ∧
      entered last.world.trace.toList = departed last.world.trace.toList := by
  intro ws last
  have hs : Sound E 0 ws := runAll_sound commands (sound_initial registers accounts code)
  have hlast : Sound E 0 last := runAll_sound _ hs
  have hempty : last.sequences = [] := by
    apply sequences_eq_nil
    intro a
    rw [container?_runAll_discards]
    by_cases ha : a < ws.registers.length
    · rw [if_pos (List.mem_range.mpr ha)]
    · rw [if_neg (fun hin => ha (List.mem_range.mp hin))]
      exact (congrArg Option.join (List.getElem?_eq_none (Nat.le_of_not_lt ha)))
  have hlive := hlast.live_eq
  have hentered := hlast.entered_eq
  rw [hempty] at hlive hentered
  refine ⟨hs.live_eq, hs.entered_eq, fun start hstart => Custody.departed_le hs.owns hstart, hlive, ?_⟩
  exact hentered.trans (add_zero _)

end Workspace

end Growable
