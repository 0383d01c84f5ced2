import Growable.Proofs.Program.Ledger

/-!
# Containers that allocate for themselves

Where blocks pass between allocators by identity alone, the block of a container was granted by an allocator of
the identity that its handle has, however often handles and blocks changed places since.  So every block goes
back to the identity that granted it, and for each identity the account comes out even.

* `Workspace.perform_balances` — each command leaves the world in balance with the ledger, and so does a whole
  program (`Workspace.Kindred.runAll`);
* `Workspace.containers_self_allocated` — what follows for the containers, and for the blocks returned.
-/

namespace Growable

open Act

variable {σ α : Type} {E : Element σ α} {who : Nat → Identity}

namespace Workspace

variable {ws : Workspace σ α} {a b : Nat} {c d : Container α}

/-- The entry of a register in the ledger, if it has one. -/
def slotHoldings (E : Element σ α) (slot : Option (Container α)) : Multiset Entry :=
  slot.elim 0 (Container.holdings E)

/-- The entries of all containers. -/
def ledger (E : Element σ α) (ws : Workspace σ α) : Multiset Entry :=
  (ws.registers.map (slotHoldings E)).sum

/-- The ledger of a workspace is that of one register and that of the others. -/
theorem ledger_put (slot : Option (Container α)) (ha : a < ws.registers.length) :
    (ws.put a slot).ledger E = slotHoldings E slot + (ws.put a none).ledger E :=
  sum_put rfl slot ha

/-- What a register holds is part of the ledger. -/
theorem ledger_eq (ha : a < ws.registers.length) :
    ws.ledger E = slotHoldings E (ws.container? a) + (ws.put a none).ledger E := by
  have hput := ledger_put (E := E) (ws.container? a) ha
  rwa [put_container? ha] at hput

/-- What a container holds is part of the ledger. -/
theorem ledger_of_container? (hc : ws.container? a = some c) :
    ws.ledger E = c.holdings E + (ws.put a none).ledger E := by
  rw [ledger_eq (lt_of_container? hc), hc]
  rfl

/-- The same holds for two registers at once. -/
theorem ledger_put_pair (x y : Container α) (hne : a ≠ b) (ha : a < ws.registers.length)
    (hb : b < ws.registers.length) : ((ws.put a (some x)).put b (some y)).ledger E
      = x.holdings E + (y.holdings E + ((ws.put a none).put b none).ledger E) :=
  sum_put_pair rfl (some x) (some y) hne ha hb

/-- The same holds for two containers at once. -/
theorem ledger_of_pair (hne : a ≠ b) (hc : ws.container? a = some c) (hd : ws.container? b = some d) :
    ws.ledger E = c.holdings E + (d.holdings E + ((ws.put a none).put b none).ledger E) := by
  have hput := ledger_put_pair (E := E) c d hne (lt_of_container? hc) (lt_of_container? hd)
  rwa [put_same hc, put_same hd] at hput

/-- The handles are of one kind, and the world is in balance with the ledger. -/
structure Kindred (E : Element σ α) (who : Nat → Identity) (ws : Workspace σ α) : Prop where
  bounded : Bounded E Size.blockLimit (Handle.Kin who) ws
  balanced : ws.world.Balanced who (ws.ledger E)

/-- So it is after a command, but for the container that was replaced. -/
structure Balances (E : Element σ α) (who : Nat → Identity)
    (result : Response α × Option (Container α) × Workspace σ α) : Prop where
  replaced : ∀ c, result.2.1 = some c → c.handle.Kin who
  balanced : result.2.2.world.Balanced who (slotHoldings E result.2.1 + result.2.2.ledger E)

/-- With nothing done, the ledger stays balanced. -/
theorem balances_none (h : ws.world.Balanced who (ws.ledger E)) (response : Response α) :
    Balances E who (response, none, ws) :=
  ⟨nofun, h.of_eq (zero_add _).symm⟩

/-- Nor does a command that only sets a policy or the code move a byte. -/
theorem balances_of_trace (h : ws.world.Balanced who (ws.ledger E)) {w : World σ α}
    (htrace : w.trace = ws.world.trace) (response : Response α) :
    Balances E who (response, none, { ws with world := w }) := by
  have hbalanced : w.Balanced who (ws.ledger E) := h.of_trace htrace
  exact balances_none hbalanced response

/-- A container that takes the place of another one of the ledger, in a world that is in balance with it. -/
theorem balanced_put {d : Container α} {w : World σ α} (hc : ws.container? a = some c)
    (h : w.Balanced who (d.holdings E + (ws.put a none).ledger E)) :
    ({ ws.put a (some d) with world := w } : Workspace σ α).world.Balanced who
      (({ ws.put a (some d) with world := w } : Workspace σ α).ledger E) :=
  h.of_eq (ledger_put (some d) (lt_of_container? hc)).symm

section Step

variable (hk : Kindred E who ws)

include hk

/-- Each container can be looked at beside the ledger of the others. -/
theorem Kindred.parts (hc : ws.container? a = some c) :
    c.handle.Kin who ∧ ws.world.Balanced who (c.holdings E + (ws.put a none).ledger E) :=
  ⟨hk.bounded.handles a c hc, hk.balanced.of_eq (ledger_of_container? hc)⟩

/-- A new container is entered with the blocks it was made with. -/
theorem store_balances {act : Act (World σ α) (Option (Container α))} {h : Handle}
    {Q : Option (Container α) → Prop} {G : Fault → Prop} (hkin : h.Kin who)
    (hmade : (act ws.world).Meets (Container.made E (ws.assets E) Q G))
    (hyields : Yields (ws.world.Evolves (Event.At h.allocator.place)) (Container.Every (·.handle = h)) act) :
    Balances E who (ws.store a act) := by
  have howns : ws.world.Owns (ws.assets E) := hk.bounded.sound.owns.of_eq (add_zero _)
  have hstill : ∀ (w : World σ α) (response : Response α), w.Owns (ws.assets E) →
      ws.world.Evolves (Event.At h.allocator.place) w →
      Balances E who (response, none, { ws with world := w }) :=
    fun w response hm hw => ⟨nofun, (hk.balanced.still hw howns hm).of_eq (zero_add _).symm⟩
  have hstores := store_spec (a := a) (hmade.and (hyields ws.world (.refl _)))
  generalize ws.store a act = result at hstores
  cases hstores with
  | vacant hfar => exact balances_none hk.balanced _
  | @stored c w ha hc =>
      obtain ⟨hkept, hhandle, hw⟩ := hc
      have hhandle : c.handle = h := hhandle c rfl
      have hnew := hk.balanced.make (d := c) (hhandle.symm ▸ hkin) (hhandle.symm ▸ hw) howns hkept.owns
      refine ⟨fun d hd => hk.bounded.handles a d hd, hnew.of_eq ?_⟩
      change _ = slotHoldings E (ws.container? a) + (ws.put a (some c)).ledger E
      rw [ledger_put _ ha, ledger_eq ha]
      exact add_left_comm _ _ _
  | invalid ha hnone => exact hstill _ _ (hnone.1.owns.of_eq (zero_add _)) hnone.2.2
  | refused ha he => exact hstill _ _ he.1.2 he.2
  | faulted ha hf => exact hstill _ _ hf.1.1 hf.2

/-- An act that leaves the world in balance with the container it leaves, and with the others. -/
theorem Edited.balanced {S : Type} {into : S → Container α} {act : Act (S × World σ α) (Answer α)}
    {result : Response α × Workspace σ α} (hedited : Edited into ws a act result)
    (h : ∀ s, ws.container? a = some (into s) → (into s).Valid E →
      ws.world.Owns ((into s).assets E + ((ws.put a none).assets E + 0)) →
      (act (s, ws.world)).Meets (.always fun u =>
        u.2.Balanced who ((into u.1).holdings E + (ws.put a none).ledger E))) :
    Balances E who (result.1, none, result.2) := by
  cases hedited with
  | vacant _ => exact balances_none hk.balanced _
  | found hc ho =>
      obtain ⟨hvalid, howns⟩ := hk.bounded.sound.parts hc
      exact balances_none (balanced_put hc (Outcome.meets_always.mp (ho ▸ h _ hc hvalid howns))) _

/-- Whatever uses the container up gives its block back. -/
theorem consume_balanced {act : Container α → Option (Act (World σ α) (Answer α))}
    (h : ∀ c act', act c = some act' → c.Valid E →
      ws.world.Owns (c.assets E + ((ws.put a none).assets E + 0)) →
      (act' ws.world).Meets (.always fun w' => w'.Owns ((ws.put a none).assets E + 0)))
    (hkeeps : ∀ c act', act c = some act' →
      Keeps (ws.world.Evolves (Event.At c.handle.allocator.place)) act') :
    (ws.consume a act).2.world.Balanced who ((ws.consume a act).2.ledger E) := by
  refine consume_cases (P := fun result => result.2.world.Balanced who (result.2.ledger E)) act
    hk.balanced ?_
  intro c act' hc hact
  obtain ⟨hvalid, howns⟩ := hk.bounded.sound.parts hc
  obtain ⟨hkin, hbalanced⟩ := hk.parts hc
  exact hbalanced.release hkin (Outcome.meets_always.mp (hkeeps c act' hact ws.world (.refl _))) howns
    (Outcome.meets_always.mp (h c act' hact hvalid howns))

/-- A copy keeps the ledger of the workspace balanced. -/
theorem copyFrom_balances (a b : Nat) : Balances E who (ws.perform E (.copyFrom a b)) := by
  refine copyFrom_cases (P := Balances E who) (balances_none hk.balanced _) ?_ ?_
  · intro s t hpair o ho
    obtain ⟨_, hc, hd⟩ := pair?_of_some hpair
    obtain ⟨hvalid, howns⟩ := hk.bounded.sound.parts hc
    obtain ⟨hkin, hbalanced⟩ := hk.parts hc
    have hafter : o.state.2.Balanced who _ := ho ▸ Outcome.meets_always.mp
      (answer_meets_always (Sequence.copyFrom_balanced hkin ⟨hvalid, howns⟩ hbalanced
        (hk.bounded.handles b _ hd) (hk.bounded.contentBytes_le hd)))
    exact balances_none (balanced_put hc hafter) _
  · intro s t hpair o ho
    obtain ⟨_, hc, hd⟩ := pair?_of_some hpair
    obtain ⟨hvalid, howns⟩ := hk.bounded.sound.parts hc
    obtain ⟨hkin, hbalanced⟩ := hk.parts hc
    have hafter : o.state.2.Balanced who _ := ho ▸ Outcome.meets_always.mp
      (answer_meets_always (BitSequence.copyFrom_balanced hkin ⟨hvalid, howns⟩ hbalanced
        (hk.bounded.sound.valid b _ hd) (hk.bounded.handles b _ hd) (hk.bounded.contentBytes_le hd)))
    exact balances_none (balanced_put hc hafter) _

theorem moveFrom_balances (a b : Nat) : Balances E who (ws.perform E (.moveFrom a b)) := by
  refine moveFrom_cases (P := Balances E who) (balances_none hk.balanced _) ?_ ?_
  · intro s t hpair o ho
    obtain ⟨hne, hc, hd⟩ := pair?_of_some hpair
    obtain ⟨hvalid, hvalid', howns⟩ := hk.bounded.sound.parts_pair hne hc hd
    have hbalanced := hk.balanced.of_eq (ledger_of_pair hne hc hd)
    have hafter : o.state.2.Balanced who _ := ho ▸ Outcome.meets_always.mp
      (answer_meets_always (Sequence.moveFrom_balanced (hk.bounded.handles a _ hc)
        ⟨hvalid, hvalid', howns⟩ (hk.bounded.contentBytes_le hd) hbalanced))
    refine balances_none ?_ _
    exact hafter.of_eq (ledger_put_pair _ _ hne (lt_of_container? hc) (lt_of_container? hd)).symm
  · intro s t hpair o ho
    obtain ⟨hne, hc, hd⟩ := pair?_of_some hpair
    obtain ⟨hvalid, hvalid', howns⟩ := hk.bounded.sound.parts_pair hne hc hd
    have hbalanced := hk.balanced.of_eq (ledger_of_pair hne hc hd)
    have hafter : o.state.2.Balanced who _ := ho ▸ Outcome.meets_always.mp
      (answer_meets_always (BitSequence.moveFrom_balanced (hk.bounded.handles a _ hc)
        ⟨hvalid, hvalid', howns⟩ (hk.bounded.contentBytes_le hd) hbalanced))
    refine balances_none ?_ _
    exact hafter.of_eq (ledger_put_pair _ _ hne (lt_of_container? hc) (lt_of_container? hd)).symm

/-- A copy has the handle of what it is a copy of. -/
theorem copied_balances {act : Act (World σ α) (Option (Container α))} {c : Container α}
    {Q : Option (Container α) → Prop} {G : Fault → Prop} (b : Nat) (hc : ws.container? a = some c)
    (hmade : (act ws.world).Meets (Container.made E (ws.assets E) Q G))
    (hyields : Yields (ws.world.Evolves (Event.At c.handle.allocator.place))
      (Container.Every (·.NoLarger E c)) act) : Balances E who (ws.store b act) :=
  store_balances hk (hk.bounded.handles a c hc) hmade
    (hyields.imp fun _ hslot => hslot.imp fun _ hd => hd.handle)

theorem edit_balances (a : Nat) (e : Edit α) : Balances E who (ws.perform E (.edit a e)) := by
  apply (edited_withSequence _).balanced hk
  intro s hs hvalid howns
  obtain ⟨hkin, hbalanced⟩ := hk.parts hs
  exact e.perform_balanced hkin ⟨hvalid, howns⟩ hbalanced (hk.bounded.contentBytes_le hs)

theorem editBits_balances (a : Nat) (e : BitEdit) : Balances E who (ws.perform E (.editBits a e)) := by
  apply (edited_withBits _).balanced hk
  intro s hs hvalid howns
  obtain ⟨hkin, hbalanced⟩ := hk.parts hs
  exact e.perform_balanced hkin ⟨hvalid, howns⟩ hbalanced (hk.bounded.contentBytes_le hs)

/-- A discard takes the blocks of its container out of the ledger. -/
theorem discard_balances (a : Nat) : Balances E who (ws.perform E (.discard a)) := by
  apply balances_none _ (ws.consume a _).1
  apply consume_balanced hk
  · intro c act' hact hc h
    cases hact
    exact discardOne_owns hc h
  · intro c act' hact
    cases hact
    exact keeps_discardOne (Event.at_of_upkeep 0)

theorem drain_balances (a : Nat) (moves : List DrainMove) :
    Balances E who (ws.perform E (.drain a moves)) := by
  apply balances_none _ (ws.consume a _).1
  apply consume_balanced hk
  · intro c act' hact hc h
    cases c with
    | elements s =>
        cases hact
        exact drainAll_owns moves hc h
    | bits s => cases hact
  · intro c act' hact
    cases c with
    | elements s =>
        cases hact
        exact keeps_drainAll (Event.at_of_upkeep 0) moves
    | bits s => cases hact

/-- **Step.**  After a command, the world is in balance with the ledger, in which the container that was replaced
still stands. -/
theorem perform_balances (command : Command σ α) (hcommand : ∀ h, command.handle? = some h → h.Kin who) :
    Balances E who (ws.perform E command) := by
  have howns : ws.world.Owns (ws.assets E) := hk.bounded.sound.owns.of_eq (add_zero _)
  cases command with
  | create a recipe h =>
      apply store_balances hk (hcommand h rfl) (recipe.create_meets h howns)
      exact (recipe.yields_create Event.at_of_local h.maxBytes_le).imp
        fun _ hslot => hslot.imp fun _ hc => hc.1
  | createBits a recipe h =>
      apply store_balances hk (hcommand h rfl) (recipe.createBits_meets h howns)
      exact (recipe.yields_createBits (E := E) Event.at_of_local h.maxBytes_le).imp
        fun _ hslot => hslot.imp fun _ hc => hc.1
  | edit a e => exact edit_balances hk a e
  | editBits a e => exact editBits_balances hk a e
  | copy a b =>
      refine copy_cases (P := Balances E who) (balances_none hk.balanced _) fun c hc => ?_
      have hvalid := hk.bounded.sound.valid a c hc
      exact copied_balances hk b hc (Container.copy_meets hvalid howns)
        (Container.yields_copy Event.at_of_local hvalid (hk.bounded.contentBytes_le hc))
  | copyDemanded a b =>
      refine copyDemanded_cases (P := Balances E who) (balances_none hk.balanced _) fun c hc => ?_
      have hvalid := hk.bounded.sound.valid a c hc
      exact copied_balances hk b hc (Container.copyDemanded_meets hvalid howns)
        (Container.yields_copyDemanded Event.at_of_local hvalid (hk.bounded.contentBytes_le hc))
  | copyFrom a b => exact copyFrom_balances hk a b
  | moveFrom a b => exact moveFrom_balances hk a b
  | discard a => exact discard_balances hk a
  | drain a moves => exact drain_balances hk a moves
  | setPolicy place policy =>
      refine balances_of_trace hk.balanced ?_ _
      rfl
  | setCode code =>
      refine balances_of_trace hk.balanced ?_ _
      rfl

/-- A container that was replaced gives its block back, and then the ledger is that of the others. -/
theorem Kindred.run (command : Command σ α) (hcommand : ∀ h, command.handle? = some h → h.Kin who) :
    Kindred E who (ws.run E command).2 := by
  refine ⟨hk.bounded.run (fun h _ => h.maxBytes_le) command hcommand, ?_⟩
  have hsettles := perform_settles command hk.bounded.sound
  obtain ⟨hreplaced, hbalanced⟩ := perform_balances hk command hcommand
  unfold Workspace.run
  generalize ws.perform E command = result at hsettles hreplaced hbalanced
  obtain ⟨response, replaced, ws'⟩ := result
  cases replaced with
  | none => exact hbalanced.of_eq (zero_add _)
  | some c =>
      have howns : ws'.world.Owns (c.assets E + ws'.assets E) :=
        hsettles.sound.owns.of_eq (add_comm _ _)
      have hgone := Outcome.meets_always.mp
        (Container.keeps_dispose (E := E) (c := c) (Event.at_of_upkeep 0) ws'.world (.refl _))
      exact hbalanced.release (hreplaced c rfl) hgone howns
        (Outcome.meets_always.mp (Container.dispose_meets (hsettles.replaced c rfl) howns))

end Step

/-- **Run.**  A program whose handles are of one kind leaves a world in balance with its ledger. -/
theorem Kindred.runAll (hk : Kindred E who ws) (commands : List (Command σ α))
    (hcommands : ∀ command ∈ commands, ∀ h, command.handle? = some h → h.Kin who) :
    Kindred E who (ws.runAll E commands).2 := by
  induction commands generalizing ws with
  | nil => exact hk
  | cons command rest ih =>
      have hnext := hk.run command (hcommands command List.mem_cons_self)
      exact ih hnext fun c hc => hcommands c (List.mem_cons_of_mem command hc)

/-- An empty workspace has an empty ledger. -/
theorem kindred_initial (registers : Nat) (accounts : List Account) (code : σ) :
    Kindred E who (initial registers accounts code : Workspace σ α) := by
  refine ⟨bounded_initial registers accounts code, ?_⟩
  have hnone : (initial registers accounts code : Workspace σ α).ledger E = 0 := by
    simp [ledger, initial, slotHoldings]
  rw [hnone]
  rfl

/-! ## Containers that allocate for themselves -/

/-- The bytes of the containers whose handles have an identity. -/
def occupiedBy (E : Element σ α) (ws : Workspace σ α) (identity : Identity) : Nat :=
  ((ws.containers.filter (·.identity = identity)).map (Container.bytes E)).sum

/-- An identity holds as many bytes as its containers occupy. -/
theorem bytesOf_ledger (hvalid : ∀ c ∈ ws.containers, c.Valid E) (identity : Identity) :
    bytesOf identity (ws.ledger E) = ws.occupiedBy E identity := by
  unfold ledger occupiedBy
  unfold containers at hvalid ⊢
  generalize ws.registers = registers at hvalid ⊢
  induction registers with
  | nil => rfl
  | cons slot rest ih =>
      rw [List.map_cons, List.sum_cons, bytesOf_add]
      cases slot with
      | none =>
          rw [ih fun c hc => hvalid c hc]
          exact zero_add _
      | some c =>
          have hc : bytesOf identity (c.holdings E) = if c.identity = identity then c.bytes E else 0 := by
            rw [Container.holdings, bytesOf_map, (hvalid c List.mem_cons_self).sum_blocks]
          rw [ih fun d hd => hvalid d (List.mem_cons_of_mem c hd), slotHoldings, Option.elim_some, hc]
          by_cases hi : c.identity = identity <;> simp [hi]

/-- The block of a container was granted by an allocator of the container's identity; each block returned came
back to the identity of the allocator that granted it; and for each identity, the bytes granted are those
returned and those that its containers occupy. -/
structure SelfAllocated (E : Element σ α) (who : Nat → Identity) (ws : Workspace σ α) : Prop where
  holder : ∀ a c, ws.container? a = some c → ∀ block, c.region.block = some block →
    (∃ place, .granted place block (c.bytes E) ∈ ws.world.trace.toList) ∧
    ∀ place bytes, .granted place block bytes ∈ ws.world.trace.toList →
      who place = c.handle.allocator.identity
  returned : ∀ place block bytes, .returned place block bytes ∈ ws.world.trace.toList →
    (∃ origin, .granted origin block bytes ∈ ws.world.trace.toList) ∧
    ∀ origin bytes', .granted origin block bytes' ∈ ws.world.trace.toList → who origin = who place
  bytes : ∀ identity, bytesOf identity (grantedBy who ws.world.trace.toList)
    = bytesOf identity (returnedTo who ws.world.trace.toList) + ws.occupiedBy E identity

/-- A balanced ledger means that every block is with the identity of its own container. -/
theorem Kindred.selfAllocated (hk : Kindred E who ws) : SelfAllocated E who ws := by
  have hnodup := hk.bounded.orderly.nodup
  refine ⟨?_, ?_, ?_⟩
  · intro a c hc block hblock
    have hmem : (c.identity, block, c.bytes E) ∈ ws.ledger E := by
      rw [ledger_of_container? hc]
      exact Multiset.mem_add.mpr (.inl (Container.mem_holdings (hk.bounded.sound.valid a c hc) hblock))
    obtain ⟨place, hgranted, hwho⟩ := hk.balanced.exists_granted hmem
    refine ⟨⟨place, hgranted⟩, fun other bytes hother => ?_⟩
    exact identity_unique hnodup (mem_grantedBy.mpr ⟨other, hother, rfl⟩)
      (mem_grantedBy.mpr ⟨place, hgranted, hwho⟩)
  · intro place block bytes hreturned
    obtain ⟨origin, hgranted, hwho⟩ := hk.balanced.exists_granted_of_returned hreturned
    refine ⟨⟨origin, hgranted⟩, fun other bytes' hother => ?_⟩
    exact identity_unique hnodup (mem_grantedBy.mpr ⟨other, hother, rfl⟩)
      (mem_grantedBy.mpr ⟨origin, hgranted, hwho⟩)
  · intro identity
    have hvalid : ∀ c ∈ ws.containers, c.Valid E := fun c hc =>
      (exists_of_mem_containers hc).elim fun a ha => hk.bounded.sound.valid a c ha
    rw [hk.balanced.bytes_eq, bytesOf_ledger hvalid]

/-- **Containers allocate for themselves.**  After every program in which blocks pass by identity, whatever was
moved, copied, refused or faulted in it. -/
theorem containers_self_allocated (E : Element σ α) (registers : Nat) (accounts : List Account) (code : σ)
    (who : Nat → Identity) (commands : List (Command σ α))
    (hcommands : ∀ command ∈ commands, ∀ h, command.handle? = some h → h.Kin who) :
    SelfAllocated E who (runAll E (initial registers accounts code) commands).2 :=
  ((kindred_initial registers accounts code).runAll commands hcommands).selfAllocated

/-- Allocators 0 and 1 share an identity, and allocator 2 has one of its own.  The block of allocator 1 passes to
a sequence of allocator 0, through which it comes back; that of allocator 2 does not pass. -/
theorem containers_self_allocated_passed :
    let E : Element Unit Nat := .plain ⟨4, 4⟩ 0
    let who : Nat → Identity := fun place => if place = 2 then .numbered 9 else .numbered 7
    let handle : Nat → Handle := fun place => (Handle.of ⟨place, who place⟩).interchanging Handle.sameIdentity
    let commands : List (Command Unit Nat) :=
      [.create 0 (.ofList [1]) (handle 0), .create 1 (.ofList [2, 3]) (handle 1), .create 2 (.ofList [4]) (handle 2),
        .moveFrom 0 1, .moveFrom 0 2, .discard 0]
    let ws := (runAll E (initial 3 [.unlimited, .unlimited, .unlimited] ()) commands).2
    .granted 1 1 8 ∈ ws.world.trace.toList ∧ .returned 0 1 8 ∈ ws.world.trace.toList ∧
      SelfAllocated E who ws := by
  intro E who handle commands ws
  have hkin : ∀ place, (handle place).Kin who := fun _ => ⟨rfl, rfl⟩
  have hcommands : ∀ command ∈ commands, ∀ h, command.handle? = some h → h.Kin who := by
    simp [commands, Command.handle?, hkin]
  exact ⟨by decide +kernel, by decide +kernel,
    containers_self_allocated E 3 [.unlimited, .unlimited, .unlimited] () who commands hcommands⟩

end Workspace

end Growable
