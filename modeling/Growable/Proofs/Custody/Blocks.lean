import Growable.Proofs.Custody.Primitive
import Growable.Proofs.Evolution

/-!
# Custody of blocks

The blocks of memory that a trace speaks of, each with its bytes: those that were `granted`, those that
were `returned`, and the ones that are still `outstanding`, over all allocators together.

* `Custody.granted_eq` — a block that was granted was returned with the bytes it was granted with, or is
  in custody still;
* `Custody.returned_le` — at no moment has a block been returned that was not granted before, with these
  bytes;
* `Custody.exists_granted` — a block in custody was granted by some allocator, with its bytes;
* `Custody.balance` — the blocks that come into custody with some events, and go out of it, are those granted
  and returned with these;
* `World.Orderly` — no two blocks of a world share a name, and each request is within a limit.
-/

namespace Growable

variable {σ α : Type}

/-- The block that an asset is, unless it is an element. -/
def Asset.block? : Asset α → Option (Block × Nat)
  | element _ => none
  | block name bytes => some (name, bytes)

/-- All blocks granted in a trace, with their bytes. -/
def granted (trace : List (Event α)) : Multiset (Block × Nat) :=
  (trace.flatMap Event.grants : List (Block × Nat))

/-- All blocks returned in a trace, with their bytes. -/
def returned (trace : List (Event α)) : Multiset (Block × Nat) :=
  (trace.flatMap Event.returns : List (Block × Nat))

/-- The blocks granted in a trace and not yet returned. -/
def outstanding (trace : List (Event α)) : Multiset (Block × Nat) := granted trace - returned trace

/-- What two traces granted, one after the other. -/
theorem granted_append (trace es : List (Event α)) :
    granted (trace ++ es) = granted trace + granted es := by
  simp [granted]

/-- What two traces returned, one after the other. -/
theorem returned_append (trace es : List (Event α)) :
    returned (trace ++ es) = returned trace + returned es := by
  simp [returned]

@[simp] theorem granted_concat (trace : List (Event α)) (e : Event α) :
    granted (trace ++ [e]) = granted trace + (e.grants : Multiset (Block × Nat)) := by
  simp [granted]

@[simp] theorem returned_concat (trace : List (Event α)) (e : Event α) :
    returned (trace ++ [e]) = returned trace + (e.returns : Multiset (Block × Nat)) := by
  simp [returned]

@[simp] theorem Asset.filterMap_block?_elements (xs : List α) :
    (Asset.elements xs).filterMap Asset.block? = 0 := by
  induction xs with
  | nil => rfl
  | cons x rest ih =>
      rw [Asset.elements_cons, Multiset.filterMap_add, ih, add_zero]
      rfl

/-- The blocks among what an event gains are those that it grants. -/
theorem Event.filterMap_block?_gains (e : Event α) :
    e.gains.filterMap Asset.block? = (e.grants : Multiset (Block × Nat)) := by
  cases e <;> rfl

/-- The blocks among what an event loses are those that it returns. -/
theorem Event.filterMap_block?_losses (e : Event α) :
    e.losses.filterMap Asset.block? = (e.returns : Multiset (Block × Nat)) := by
  cases e <;> rfl

namespace Custody

/-- **Conservation.**  A block that was granted was returned or is in custody, with the same bytes. -/
theorem granted_eq {trace : List (Event α)} {m : Multiset (Asset α)} (h : Custody trace m) :
    granted trace = returned trace + m.filterMap Asset.block? := by
  induction h with
  | nothing => rfl
  | @event trace kept e before ih =>
      rw [Multiset.filterMap_add, Event.filterMap_block?_losses] at ih
      rw [granted_concat, returned_concat, Multiset.filterMap_add, Event.filterMap_block?_gains, ih]
      abel

/-- What came in with some events makes up for what went out. -/
theorem balance {trace es : List (Event α)} {m m' : Multiset (Asset α)} (h : Custody trace m)
    (h' : Custody (trace ++ es) m') :
    m.filterMap Asset.block? + granted es = returned es + m'.filterMap Asset.block? := by
  have hafter := h'.granted_eq
  rw [granted_append, returned_append, h.granted_eq, add_assoc, add_assoc] at hafter
  exact add_left_cancel hafter

/-- What is outstanding is in custody. -/
theorem outstanding_eq {trace : List (Event α)} {m : Multiset (Asset α)} (h : Custody trace m) :
    outstanding trace = m.filterMap Asset.block? := by
  rw [outstanding, h.granted_eq, add_tsub_cancel_left]

/-- No block is returned that was not granted before. -/
theorem returned_le {trace start : List (Event α)} {m : Multiset (Asset α)}
    (h : Custody trace m) (hstart : start <+: trace) : returned start ≤ granted start := by
  obtain ⟨m', h'⟩ := h.exists_of_isPrefix hstart
  rw [h'.granted_eq]
  exact Multiset.le_add_right _ _

/-- A block in custody was granted by some allocator, with the bytes that it has. -/
theorem exists_granted {trace : List (Event α)} {m : Multiset (Asset α)} (h : Custody trace m)
    {block : Block} {bytes : Nat} (hmem : .block block bytes ∈ m) :
    ∃ place, .granted place block bytes ∈ trace := by
  induction h with
  | nothing => cases Multiset.notMem_zero _ hmem
  | @event trace kept e before ih =>
      rcases Multiset.mem_add.mp hmem with hkept | hgained
      · obtain ⟨place, hplace⟩ := ih (Multiset.mem_add.mpr (.inl hkept))
        exact ⟨place, List.mem_append_left _ hplace⟩
      · cases e with
        | granted place block' bytes' =>
            cases Multiset.mem_singleton.mp hgained
            exact ⟨place, List.mem_append_right _ List.mem_cons_self⟩
        | _ => simp [Event.gains, Event.entering, Asset.elements] at hgained

end Custody

/-! ## Blocks of regions -/

namespace Region

variable {shape : Shape} {r : Region}

/-- A region is one block of its bytes, unless it has none. -/
theorem Valid.sizes_eq (hr : r.Valid shape) :
    ((r.assets shape : Multiset (Asset α)).filterMap Asset.block?).map Prod.snd
      = ({shape.bytes * r.capacity} : Multiset Nat).filter (· ≠ 0) := by
  unfold assets
  cases hblock : r.block with
  | none =>
      rw [Multiset.filter_singleton, if_neg (not_not.mpr (hr.block_eq_none_iff.mp hblock))]
      rfl
  | some block =>
      have hne : shape.bytes * r.capacity ≠ 0 := fun hzero => by
        rw [hr.block_eq_none_iff.mpr hzero] at hblock
        cases hblock
      rw [Multiset.filter_singleton, if_pos hne]
      rfl

/-- The bytes of a region are within every limit that holds for the blocks in custody. -/
theorem Valid.bytes_le (hr : r.Valid shape) {limit : Nat} {w : World σ α} {m : Multiset (Asset α)}
    (hsized : ∀ e ∈ w.trace.toList, e.Sized fun _ => limit) (h : w.Owns (r.assets shape + m)) :
    shape.bytes * r.capacity ≤ limit := by
  cases hblock : r.block with
  | none =>
      rw [hr.block_eq_none_iff.mp hblock]
      exact Nat.zero_le limit
  | some block =>
      have hmem : .block block (shape.bytes * r.capacity) ∈ r.assets shape + m := by
        rw [assets, hblock]
        exact Multiset.mem_add.mpr (.inl (Multiset.mem_singleton_self _))
      obtain ⟨place, hgranted⟩ := Custody.exists_granted h hmem
      exact (hsized _ hgranted _ _ rfl).2

end Region

/-! ## The names of blocks -/

namespace World

/-- Each request in the trace is within the limit, and the blocks granted are named in order. -/
structure Orderly (limit : Nat) (w : World σ α) : Prop where
  sized : ∀ e ∈ w.trace.toList, e.Sized fun _ => limit
  names : (w.trace.toList.flatMap Event.grants).map Prod.fst = List.range w.issued

variable {limit : Nat} {w w' : World σ α}

/-- A world stays orderly as long as no larger block is requested. -/
theorem Orderly.evolves (hw : w.Orderly limit) (h : w.Evolves (Event.Sized fun _ => limit) w') :
    w'.Orderly limit := by
  obtain ⟨es, n, htrace, hes, hissued, hnames⟩ := h
  constructor
  · intro e he
    rw [htrace] at he
    rcases List.mem_append.mp he with hold | hnew
    · exact hw.sized e hold
    · exact hes e hnew
  · rw [htrace, List.flatMap_append, List.map_append, hw.names, hnames, hissued,
      List.range_eq_range', List.range_eq_range', ← List.range'_append_1, Nat.zero_add]

/-- No two blocks share a name. -/
theorem Orderly.nodup (hw : w.Orderly limit) :
    ((granted w.trace.toList).map Prod.fst).Nodup := by
  rw [granted, Multiset.map_coe, hw.names]
  exact Multiset.coe_nodup.mpr List.nodup_range

end World

end Growable
