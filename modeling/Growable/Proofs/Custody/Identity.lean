import Mathlib.Algebra.BigOperators.Group.Multiset.Basic
import Growable.Proofs.Custody.Blocks

/-!
# Blocks by identity

Allocators of one identity share their blocks.  When the identity of the allocator at each place is known, each
block that was granted, or returned, counts for an identity (`grantedBy`, `returnedTo`), and a world is in
balance with a ledger if, for every identity, what was granted was returned or stands in the ledger
(`World.Balanced`).

* `World.Balanced.step` — when all dealings are with one allocator, only the entries of its identity change, by
  as much as the blocks in custody do;
* `World.Balanced.exists_granted`, `World.Balanced.exists_granted_of_returned` — a block in the ledger, and a
  block that was returned, was granted by an allocator of the identity;
* `World.Balanced.bytes_eq` — the bytes granted by an identity are those returned to it, and those in the ledger.
-/

namespace Growable

variable {σ α : Type}

/-- If the event involves an allocator, it is the one at the place. -/
def Event.At (place : Nat) (e : Event α) : Prop := ∀ p, e.place? = some p → p = place

/-- What is local to a place is at that place. -/
theorem Event.at_of_local {place most : Nat} (e : Event α) (h : e.Local place most) : e.At place := by
  intro p hp
  rcases h with hnone | hdealing
  · cases hnone.symm.trans hp
  · cases (place?_of_dealing hdealing).symm.trans hp
    rfl

theorem Event.at_of_upkeep {place : Nat} (most : Nat) : ∀ e : Event α, e.Upkeep place most → e.At place :=
  upkeep_of_local at_of_local

/-! ## Entries -/

/-- A block with its bytes, under an identity. -/
abbrev Entry := Identity × Block × Nat

section Entries

variable (who : Nat → Identity) (blocks : Event α → List (Block × Nat))

/-- The blocks of the events of a trace, under the identity of the allocator that each one involves. -/
def entries (trace : List (Event α)) : Multiset Entry :=
  (trace.flatMap fun e => e.place?.toList.flatMap fun place => (blocks e).map (Prod.mk (who place)) :
    List Entry)

/-- The blocks granted in a trace. -/
def grantedBy (trace : List (Event α)) : Multiset Entry := entries who Event.grants trace

/-- The blocks returned in a trace. -/
def returnedTo (trace : List (Event α)) : Multiset Entry := entries who Event.returns trace

variable {who blocks} {trace es : List (Event α)} {place : Nat}

/-- The entries of two traces, one after the other. -/
theorem entries_append (trace es : List (Event α)) :
    entries who blocks (trace ++ es) = entries who blocks trace + entries who blocks es := by
  rw [entries, List.flatMap_append, ← Multiset.coe_add]
  rfl

/-- An entry is a block that an event deals with at a place of that identity. -/
theorem mem_entries {identity : Identity} {block : Block} {bytes : Nat} :
    (identity, block, bytes) ∈ entries who blocks trace ↔
      ∃ e ∈ trace, ∃ place, e.place? = some place ∧ (block, bytes) ∈ blocks e ∧ who place = identity := by
  simp only [entries, Multiset.mem_coe, List.mem_flatMap, Option.mem_toList, List.mem_map, Prod.mk.injEq]
  constructor
  · rintro ⟨e, he, place, hplace, _, hblock, rfl, rfl⟩
    exact ⟨e, he, place, hplace, hblock, rfl⟩
  · rintro ⟨e, he, place, hplace, hblock, rfl⟩
    exact ⟨e, he, place, hplace, _, hblock, rfl, rfl⟩

/-- Nothing is returned where no allocator is involved. -/
theorem Event.returns_of_unasked {e : Event α} (h : e.place? = none) : e.returns = [] := by
  cases e <;> first | rfl | cases h

variable (hblocks : ∀ e : Event α, e.place? = none → blocks e = [])

include hblocks

/-- Without the identities, the entries are the blocks of the trace. -/
theorem map_snd_entries (trace : List (Event α)) :
    (entries who blocks trace).map Prod.snd = (trace.flatMap blocks : List (Block × Nat)) := by
  rw [entries, Multiset.map_coe, List.map_flatMap]
  congr 1
  apply List.flatMap_congr
  intro e _
  cases hplace : e.place? with
  | none => exact (hblocks e hplace).symm
  | some place => simp [Function.comp_def]

/-- Where no other allocator is involved, all blocks are under one identity. -/
theorem entries_of_at (hes : ∀ e ∈ es, e.At place) :
    entries who blocks es
      = ((es.flatMap blocks : List (Block × Nat)) : Multiset (Block × Nat)).map (Prod.mk (who place)) := by
  rw [entries, Multiset.map_coe, List.map_flatMap]
  congr 1
  apply List.flatMap_congr
  intro e he
  cases hplace : e.place? with
  | none => simp [hblocks e hplace]
  | some p =>
      obtain rfl := hes e he p hplace
      simp

end Entries

section Trace

variable {who : Nat → Identity} {trace es : List (Event α)} {place : Nat}

/-- What two traces granted, by identity. -/
theorem grantedBy_append (trace es : List (Event α)) :
    grantedBy who (trace ++ es) = grantedBy who trace + grantedBy who es := entries_append trace es

/-- What two traces returned, by identity. -/
theorem returnedTo_append (trace es : List (Event α)) :
    returnedTo who (trace ++ es) = returnedTo who trace + returnedTo who es := entries_append trace es

/-- What is granted at one place is granted by the identity of that place. -/
theorem grantedBy_of_at (hes : ∀ e ∈ es, e.At place) :
    grantedBy who es = (granted es).map (Prod.mk (who place)) :=
  entries_of_at (fun _ => Event.grants_of_unasked) hes

/-- What is returned at one place is returned to the identity of that place. -/
theorem returnedTo_of_at (hes : ∀ e ∈ es, e.At place) :
    returnedTo who es = (returned es).map (Prod.mk (who place)) :=
  entries_of_at (fun _ => Event.returns_of_unasked) hes

/-- A block is granted by the identity of the place that granted it. -/
theorem mem_grantedBy {identity : Identity} {block : Block} {bytes : Nat} :
    (identity, block, bytes) ∈ grantedBy who trace ↔
      ∃ place, .granted place block bytes ∈ trace ∧ who place = identity := by
  refine mem_entries.trans ⟨?_, ?_⟩
  · rintro ⟨e, he, place, hplace, hblock, hwho⟩
    cases e with
    | granted place' block' bytes' =>
        cases hplace
        cases List.mem_singleton.mp hblock
        exact ⟨_, he, hwho⟩
    | _ => cases hblock
  · rintro ⟨place, he, hwho⟩
    exact ⟨_, he, place, rfl, List.mem_singleton_self _, hwho⟩

/-- A block is returned to the identity of the place that it went back to. -/
theorem mem_returnedTo {identity : Identity} {block : Block} {bytes : Nat} :
    (identity, block, bytes) ∈ returnedTo who trace ↔
      ∃ place, .returned place block bytes ∈ trace ∧ who place = identity := by
  refine mem_entries.trans ⟨?_, ?_⟩
  · rintro ⟨e, he, place, hplace, hblock, hwho⟩
    cases e with
    | returned place' block' bytes' =>
        cases hplace
        cases List.mem_singleton.mp hblock
        exact ⟨_, he, hwho⟩
    | _ => cases hblock
  · rintro ⟨place, he, hwho⟩
    exact ⟨_, he, place, rfl, List.mem_singleton_self _, hwho⟩

/-- Where no two blocks share a name, a block was granted by one identity. -/
theorem identity_unique (hnodup : ((granted trace).map Prod.fst).Nodup) {i j : Identity} {block : Block}
    {bytes bytes' : Nat} (h : (i, block, bytes) ∈ grantedBy who trace)
    (h' : (j, block, bytes') ∈ grantedBy who trace) : i = j := by
  have hsnd : (grantedBy who trace).map Prod.snd = granted trace :=
    map_snd_entries (fun _ => Event.grants_of_unasked) trace
  have hnames : ((grantedBy who trace).map fun entry => entry.2.1).Nodup := by
    rw [← hsnd, Multiset.map_map] at hnodup
    exact hnodup
  cases Multiset.inj_on_of_nodup_map hnames _ h _ h' rfl
  rfl

end Trace

/-- The bytes of the entries under an identity. -/
def bytesOf (identity : Identity) (ledger : Multiset Entry) : Nat :=
  ((ledger.filter (·.1 = identity)).map (·.2.2)).sum

/-- The bytes of two ledgers add up. -/
theorem bytesOf_add (identity : Identity) (ledger ledger' : Multiset Entry) :
    bytesOf identity (ledger + ledger') = bytesOf identity ledger + bytesOf identity ledger' := by
  rw [bytesOf, Multiset.filter_add, Multiset.map_add, Multiset.sum_add]
  rfl

/-- Blocks of one identity count for that identity only. -/
theorem bytesOf_map (identity i : Identity) (held : Multiset (Block × Nat)) :
    bytesOf identity (held.map (Prod.mk i)) = if i = identity then (held.map Prod.snd).sum else 0 := by
  rw [bytesOf, Multiset.filter_map, Multiset.map_map]
  by_cases hi : i = identity
  · have hall : held.filter ((fun entry : Entry => entry.1 = identity) ∘ Prod.mk i) = held :=
      Multiset.filter_eq_self.mpr fun _ _ => hi
    rw [if_pos hi, hall]
    rfl
  · have hnone : held.filter ((fun entry : Entry => entry.1 = identity) ∘ Prod.mk i) = 0 :=
      Multiset.filter_eq_nil.mpr fun _ _ => hi
    rw [if_neg hi, hnone]
    rfl

/-! ## Worlds in balance -/

namespace World

/-- What was granted was returned or stands in the ledger, under the same identity. -/
def Balanced (who : Nat → Identity) (w : World σ α) (ledger : Multiset Entry) : Prop :=
  grantedBy who w.trace.toList = returnedTo who w.trace.toList + ledger

variable {who : Nat → Identity} {w w' : World σ α} {ledger ledger' : Multiset Entry} {place : Nat}

/-- The balance depends on the ledger only. -/
theorem Balanced.of_eq (h : w.Balanced who ledger) (heq : ledger = ledger') : w.Balanced who ledger' :=
  heq ▸ h

/-- The balance depends on the trace only. -/
theorem Balanced.of_trace (h : w.Balanced who ledger) (htrace : w'.trace = w.trace) :
    w'.Balanced who ledger := by
  unfold Balanced
  rw [htrace]
  exact h

/-- Where the blocks `held` became the blocks `held'`, beside others, by dealings with one allocator, so do the
entries under its identity. -/
theorem Balanced.step {m m' : Multiset (Asset α)} {held held' others : Multiset (Block × Nat)}
    (h : w.Balanced who (held.map (Prod.mk (who place)) + ledger)) (hw : w.Evolves (Event.At place) w')
    (hm : w.Owns m) (hm' : w'.Owns m') (hheld : m.filterMap Asset.block? = held + others)
    (hheld' : m'.filterMap Asset.block? = held' + others) :
    w'.Balanced who (held'.map (Prod.mk (who place)) + ledger) := by
  obtain ⟨es, _, htrace, hes, _⟩ := hw
  unfold Balanced Owns at *
  rw [htrace] at hm' ⊢
  have hbalance : held + granted es = returned es + held' := by
    have hall := hm.balance hm'
    rw [hheld, hheld', add_right_comm, ← add_assoc] at hall
    exact add_right_cancel hall
  have hlabelled : held.map (Prod.mk (who place)) + grantedBy who es
      = returnedTo who es + held'.map (Prod.mk (who place)) := by
    rw [grantedBy_of_at hes, returnedTo_of_at hes, ← Multiset.map_add, hbalance, Multiset.map_add]
  calc grantedBy who (w.trace.toList ++ es)
      = returnedTo who w.trace.toList + ledger + (held.map (Prod.mk (who place)) + grantedBy who es) := by
        rw [grantedBy_append, h]
        abel
    _ = returnedTo who (w.trace.toList ++ es) + (held'.map (Prod.mk (who place)) + ledger) := by
        rw [hlabelled, returnedTo_append]
        abel

/-- What stands in the ledger was granted by an allocator of the identity. -/
theorem Balanced.exists_granted (h : w.Balanced who ledger) {identity : Identity} {block : Block}
    {bytes : Nat} (hmem : (identity, block, bytes) ∈ ledger) :
    ∃ place, .granted place block bytes ∈ w.trace.toList ∧ who place = identity := by
  apply mem_grantedBy.mp
  rw [h]
  exact Multiset.mem_add.mpr (.inr hmem)

/-- What was returned was granted by an allocator of the identity. -/
theorem Balanced.exists_granted_of_returned (h : w.Balanced who ledger) {block : Block} {bytes : Nat}
    (hreturned : .returned place block bytes ∈ w.trace.toList) :
    ∃ p, .granted p block bytes ∈ w.trace.toList ∧ who p = who place := by
  apply mem_grantedBy.mp
  rw [h]
  exact Multiset.mem_add.mpr (.inl (mem_returnedTo.mpr ⟨place, hreturned, rfl⟩))

/-- For each identity, the bytes that it granted are those that went back to it, and those of the
ledger. -/
theorem Balanced.bytes_eq (h : w.Balanced who ledger) (identity : Identity) :
    bytesOf identity (grantedBy who w.trace.toList)
      = bytesOf identity (returnedTo who w.trace.toList) + bytesOf identity ledger := by
  rw [h, bytesOf_add]

end World

end Growable
