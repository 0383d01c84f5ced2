import Growable.Proofs.Program.Evolution

/-!
# The memory of a program is accounted for

Over all allocators together, the blocks that were granted and not yet returned are the blocks of the
containers, no more and no less, after every command and whatever was refused or faulted on the way.  The
workspace is sound, so that the blocks in custody are those of its containers; and a trace that can be
read lets nothing go that it does not hold, so that what is outstanding is what is in custody.

* `Workspace.Sound.sizes_eq` — the sizes of the outstanding blocks are those of the containers;
* `Workspace.blocks_accounted` — the whole account of a program, from its first request to the last block
  that comes back.
-/

namespace Growable

variable {σ α : Type} {E : Element σ α}

/-- A container is one block of the bytes that it occupies, unless it occupies none. -/
theorem Container.Valid.sizes_eq {c : Container α} (hc : c.Valid E) :
    ((c.assets E).filterMap Asset.block?).map Prod.snd
      = ({c.bytes E} : Multiset Nat).filter (· ≠ 0) := by
  cases c with
  | elements s =>
      have hassets : assets E (.elements s) = Asset.elements s.items + s.region.assets E.toShape := rfl
      rw [hassets, Multiset.filterMap_add, Asset.filterMap_block?_elements, zero_add]
      exact Region.Valid.sizes_eq hc.region
  | bits s => exact Region.Valid.sizes_eq hc.region

namespace Workspace

variable {ws : Workspace σ α}

/-- The containers in the registers. -/
def containers (ws : Workspace σ α) : List (Container α) := ws.registers.filterMap id

/-- The bytes that the containers occupy, for each one that occupies any. -/
def sizes (E : Element σ α) (ws : Workspace σ α) : Multiset Nat :=
  ((ws.containers.map (Container.bytes E) : List Nat) : Multiset Nat).filter (· ≠ 0)

/-- A container of a workspace has a register. -/
theorem exists_of_mem_containers {c : Container α} (hc : c ∈ ws.containers) :
    ∃ a, ws.container? a = some c := by
  obtain ⟨slot, hslot, hsome⟩ := List.mem_filterMap.mp hc
  obtain ⟨a, ha, rfl⟩ := List.mem_iff_getElem.mp hslot
  refine ⟨a, ?_⟩
  rw [container?, List.getElem?_eq_getElem ha]
  exact hsome

/-- The sizes of the blocks in custody are those of the containers. -/
theorem sizes_assets (hvalid : ∀ c ∈ ws.containers, c.Valid E) :
    ((ws.assets E).filterMap Asset.block?).map Prod.snd = ws.sizes E := by
  unfold assets sizes
  unfold containers at hvalid ⊢
  generalize ws.registers = registers at hvalid ⊢
  induction registers with
  | nil => rfl
  | cons slot rest ih =>
      cases slot with
      | none =>
          have hrest := ih fun c hc => hvalid c hc
          rw [List.map_cons, List.sum_cons, Multiset.filterMap_add, Multiset.map_add, hrest]
          exact zero_add _
      | some c =>
          have hrest := ih fun d hd => hvalid d (List.mem_cons_of_mem c hd)
          have hc : c.Valid E := hvalid c List.mem_cons_self
          rw [List.map_cons, List.sum_cons, Multiset.filterMap_add, Multiset.map_add, hrest,
            slotAssets, Option.elim_some, hc.sizes_eq, ← Multiset.filter_add]
          rfl

/-- The sizes of the blocks granted and not yet returned are those of the containers. -/
theorem Sound.sizes_eq (hs : Sound E 0 ws) :
    (outstanding ws.world.trace.toList).map Prod.snd = ws.sizes E := by
  rw [Custody.outstanding_eq (hs.owns.of_eq (add_zero _))]
  apply sizes_assets
  intro c hc
  obtain ⟨a, ha⟩ := exists_of_mem_containers hc
  exact hs.valid a c ha

/-- Registers without containers answer for nothing. -/
theorem assets_eq_zero (h : ws.containers = []) : ws.assets E = 0 := by
  unfold assets
  apply List.sum_eq_zero
  intro assets hassets
  obtain ⟨slot, hslot, rfl⟩ := List.mem_map.mp hassets
  have hnone : slot = none := List.filterMap_eq_nil_iff.mp h slot hslot
  rw [hnone]
  rfl

/-- No container is left once all of them are discarded. -/
theorem containers_discards :
    (ws.runAll E (discards (List.range ws.registers.length))).2.containers = [] := by
  apply List.eq_nil_iff_forall_not_mem.mpr
  intro c hc
  obtain ⟨a, ha⟩ := exists_of_mem_containers hc
  rw [container?_runAll_discards] at ha
  by_cases hin : a ∈ List.range ws.registers.length
  · rw [if_pos hin] at ha
    cases ha
  · rw [if_neg hin] at ha
    exact hin (List.mem_range.mpr (lt_of_container? ha))

/-- **The account of a program.**  After every program, whatever was refused or faulted in it, over all
allocators together: the sizes of the blocks granted and not yet returned are the sizes of the containers
that occupy memory; no two blocks granted share a name, and at no moment has a block been returned more
often, or with other bytes, than it was granted; no request was for zero bytes; and once all containers
are discarded, every block granted has been returned. -/
theorem blocks_accounted (E : Element σ α) (registers : Nat) (accounts : List Account) (code : σ)
    (commands : List (Command σ α)) :
    let ws := (runAll E (initial registers accounts code) commands).2
    let last := (ws.runAll E (discards (List.range ws.registers.length))).2
    (outstanding ws.world.trace.toList).map Prod.snd = ws.sizes E ∧
      ((granted ws.world.trace.toList).map Prod.fst).Nodup ∧
      (∀ start, start <+: ws.world.trace.toList → returned start ≤ granted start) ∧
      (∀ e ∈ ws.world.trace.toList, ∀ place bytes, e.request? = some (place, bytes) → 0 < bytes) ∧
      returned last.world.trace.toList = granted last.world.trace.toList := by
  intro ws last
  -- No handle admits more than a block can have, so that every program stays within that limit.
  have hbounded : Bounded E Size.blockLimit (fun _ => True) ws :=
    (bounded_initial registers accounts code).runAll (fun h _ => h.maxBytes_le) commands
      fun _ _ _ _ => trivial
  have hs : Sound E 0 ws := hbounded.sound
  have hlast : Sound E 0 last := runAll_sound _ hs
  have hpositive : ∀ e ∈ ws.world.trace.toList, ∀ place bytes,
      e.request? = some (place, bytes) → 0 < bytes :=
    fun e he place bytes hbytes => (hbounded.orderly.sized e he place bytes hbytes).1
  have hreturned : returned last.world.trace.toList = granted last.world.trace.toList := by
    have hnothing : last.assets E = 0 := assets_eq_zero containers_discards
    rw [Custody.granted_eq (hlast.owns.of_eq (add_zero _)), hnothing, Multiset.filterMap_zero,
      add_zero]
  exact ⟨hs.sizes_eq, hbounded.orderly.nodup, fun start hstart => Custody.returned_le hs.owns hstart,
    hpositive, hreturned⟩

end Workspace

end Growable
