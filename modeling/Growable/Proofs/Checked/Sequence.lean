import Growable.Proofs.Checked.Staging
import Growable.Proofs.Sequence.Demand

/-!
# Storage and removal, checked

The operations that give a sequence another region, and those that take elements away, with all that they
compute: the slots and the numbers of the elements that are dropped or moved up, and the length that is left.
None of it fails for a valid sequence the capacity of which is a size (`Sequence.Countable`).
-/

namespace Growable.Sequence

open Checked

variable {σ α β : Type} (E : Element σ α)

/-- Goes on with a sequence, the length of which was computed. -/
def holdChecked (len : Nat) (s : Sequence α) : Checked (Sequence α × World σ α) Unit := do
  require (s.len = len)
  ofAct (Act.hold s)

/-- The element of a sequence at an index, which is tested before the element is read. -/
def accessChecked (s : Sequence α) (index : Nat) : Checked (Sequence α × World σ α) α := do
  ofAct (Act.ofExcept (checkIndex index s.len))
  require (index < s.len)
  ofOption s.items[index]?

/-! ## Storage -/

/-- Takes new storage, and releases the old one. -/
def installChecked (region : Region) (items : List α) : Checked (Sequence α × World σ α) Unit := do
  let s ← ofAct Act.held
  ofAct (Act.hold { s with region, items })
  inWorld (s.region.releaseChecked E.toShape s.handle.allocator)

/-- Drops the elements of a sequence, then releases its region. -/
def disposeChecked (unwinding : Bool) (s : Sequence α) : Checked (World σ α) Unit :=
  ensuring (ofAct (E.dropAll unwinding s.items)) fun _ =>
    s.region.releaseChecked E.toShape s.handle.allocator

/-- Takes new contents, and disposes of the old ones. -/
def replaceChecked (region : Region) (items : List α) : Checked (Sequence α × World σ α) Unit := do
  let s ← ofAct Act.held
  ofAct (Act.hold { s with region, items })
  inWorld (s.disposeChecked E false)

/-- Moves the elements to a new region of exactly `capacity` slots. -/
def reallocateChecked (capacity : Nat) : Checked (Sequence α × World σ α) Unit := do
  let s ← ofAct Act.held
  require (s.len ≤ capacity)
  let (region, items) ← inWorld do
    ofAct (World.note (.reallocating s.capacity capacity))
    let staging ← ofAct (Staging.allocate E s.handle.allocator capacity)
    let staging ← staging.moveAfterChecked s.items
    staging.adoptChecked
  installChecked E region items

/-- Makes room for `capacity` elements in all. -/
def reserveChecked (capacity : Nat) : Checked (Sequence α × World σ α) Unit := do
  let s ← ofAct Act.held
  if capacity ≤ s.capacity then
    return
  ofAct (Act.ofExcept (Capacity.check capacity (s.maxSize E)))
  reallocateChecked E capacity

/-- Makes room for `additional` more elements. -/
def reserveMoreChecked (additional : Nat) : Checked (Sequence α × World σ α) Unit := do
  let s ← ofAct Act.held
  let required ← ofAct (Act.ofExcept (s.required additional))
  if required ≤ s.capacity then
    return
  let capacity ← ofAct (Act.ofExcept (Capacity.grow s.capacity required (s.maxSize E)))
  reallocateChecked E capacity

/-- Gives up all spare slots. -/
def shrinkChecked : Checked (Sequence α × World σ α) Unit := do
  let s ← ofAct Act.held
  if s.capacity = s.len then
    return
  if s.len = 0 then
    ofAct (Act.hold { s with region := .empty })
    inWorld (s.region.releaseChecked E.toShape s.handle.allocator)
  else
    reallocateChecked E s.len

/-! ## Removal -/

/-- Hands out the last element, if there is one. -/
def popChecked : Checked (Sequence α × World σ α) (Option α) := do
  let s ← ofAct Act.held
  if s.len = 0 then
    return none
  let len ← difference s.len 1
  slot s.capacity len
  let x ← ofOption s.items[len]?
  holdChecked len { s with items := s.items.take len }
  inWorld (ofAct (World.hand x))
  return some x

/-- Hands out the element at an index, and closes up the elements behind it. -/
def eraseChecked (index : Nat) : Checked (Sequence α × World σ α) α := do
  let s ← ofAct Act.held
  let x ← s.accessChecked index
  let next ← sum index 1
  let rest ← difference s.len index
  let rest ← difference rest 1
  let items ← ofOption ((Cells.ofItems s.len s.items).closeUp? index next rest)
  let len ← difference s.len 1
  holdChecked len { s with items }
  inWorld (ofAct (World.hand x))
  return x

/-- Keeps at most the first `n` elements, and drops the others. -/
def truncateChecked (n : Nat) : Checked (Sequence α × World σ α) Unit := do
  let s ← ofAct Act.held
  if s.len ≤ n then
    return
  slot s.capacity n
  let count ← difference s.len n
  let tail ← run count (s.items.drop n)
  holdChecked n { s with items := s.items.take n }
  inWorld (ofAct (E.dropAll false tail))

/-- Drops the elements of a span, and closes up the elements behind it. -/
def eraseSpanChecked (span : Span) : Checked (Sequence α × World σ α) Unit := do
  let s ← ofAct Act.held
  let (start, stop) ← ofAct (Act.ofExcept (span.within s.len))
  if start = stop then
    return
  let tail ← difference s.len stop
  holdChecked start { s with items := s.items.take start }
  let count ← difference stop start
  let cells := Cells.ofItems s.len s.items
  let removed ← ofOption (cells.run? start count)
  ensuring (inWorld (ofAct (E.dropAll false removed))) fun _ => do
    let items ← ofOption (cells.closeUp? start stop tail)
    let len ← sum start tail
    holdChecked len { s with items }

/-! ## Nothing fails -/

/-- A valid sequence with as many slots as a size can express. -/
structure Countable (s : Sequence α) : Prop where
  valid : s.Valid E
  capacity_le : s.capacity ≤ Size.limit

variable {E} {s : Sequence α} {w : World σ α}

/-- The length is a size. -/
theorem Countable.len_le (hs : s.Countable E) : s.len ≤ Size.limit :=
  hs.valid.len_le.trans hs.capacity_le

/-- Other elements in the same slots. -/
theorem Countable.with_items (hs : s.Countable E) {xs : List α} (h : xs.length ≤ s.capacity) :
    { s with items := xs }.Countable E :=
  ⟨⟨hs.valid.region, h⟩, hs.capacity_le⟩

/-- A sequence may be put in place whose length was computed before. -/
theorem runs_holdChecked {t : Sequence α} {len : Nat} {u : Sequence α × World σ α}
    {next : Unit → Checked (Sequence α × World σ α) β} {next' : Unit → SequenceAct σ α β}
    (hlen : t.len = len) (h : (next ()).Runs (next' ()) (t, u.2)) :
    (holdChecked len t >>= next).Runs (Act.hold t >>= next') u := by
  rw [holdChecked, bind_assoc]
  exact runs_require hlen (runs_hold h)

/-- A valid sequence has a block of the size that it gives back. -/
theorem runs_dispose (hfits : E.toShape.Fits) (hs : s.Valid E) (unwinding : Bool) :
    (s.disposeChecked E unwinding).Runs (s.dispose E unwinding) w :=
  (runs_ofAct _ _).ensuring fun _ _ _ => Region.runs_release hs.region hfits _

section Runs

variable (hfits : E.toShape.Fits) (hs : s.Countable E)

include hfits hs

/-- The region that is replaced has a block of the size that it gives back. -/
theorem runs_install (region : Region) (items : List α) :
    (installChecked E region items).Runs (install E region items) (s, w) :=
  runs_held (runs_hold (Region.runs_release hs.valid.region hfits _).inWorld)

/-- The elements that are replaced are dropped, and their block has the size that it gives back. -/
theorem runs_replace (region : Region) (items : List α) :
    (replaceChecked E region items).Runs (replace E region items) (s, w) :=
  runs_held (runs_hold (runs_dispose hfits hs.valid false).inWorld)

/-- All elements have their slots in the new region. -/
theorem runs_reallocate {capacity : Nat} (hroom : s.len ≤ capacity) (hcapacity : capacity ≤ Size.limit) :
    (reallocateChecked E capacity).Runs (reallocate E capacity) (s, w) := by
  refine runs_held (runs_both hroom (runs_inWorld ?_ fun r w' _ => runs_install hfits hs r.1 r.2))
  refine runs_act fun _ w₁ _ => ?_
  refine Staging.runs_allocate _ hcapacity fun staging w₂ hstaging hstart hnone hsize => ?_
  have hstop : staging.stop = 0 := by rw [Staging.stop, hstart, hnone, List.length_nil]
  have hspace : staging.stop + s.items.length ≤ staging.region.capacity := by
    rw [hstop, hsize, Nat.zero_add]
    exact hroom
  exact Staging.runs_moveAfter hstaging hspace (Staging.runs_adopt hstart)

/-- The bytes of a capacity that is admitted can be computed. -/
theorem runs_reserve (capacity : Nat) : (reserveChecked E capacity).Runs (reserve E capacity) (s, w) := by
  refine runs_held (runs_ite (fun _ => runs_pure _ _) fun hmore => runs_ofExcept fun _ hcheck => ?_)
  have hmax : capacity ≤ s.maxSize E := Capacity.check_eq_ok_iff.mp hcheck
  have hroom : s.len ≤ capacity := hs.valid.len_le.trans (Nat.le_of_not_le hmore)
  exact runs_reallocate hfits hs hroom (hmax.trans (s.handle.maxSize_le_limit E.bytes))

/-- A length that is admitted is computed without a wrap. -/
theorem runs_reserveMore (additional : Nat) :
    (reserveMoreChecked E additional).Runs (reserveMore E additional) (s, w) := by
  refine runs_held (runs_ofExcept fun required hrequired => ?_)
  refine runs_ite (fun _ => runs_pure _ _) fun _ => runs_ofExcept fun capacity hgrow => ?_
  obtain ⟨hle, hmax⟩ := Capacity.grow_bounds hgrow
  have hroom : s.len ≤ capacity := by
    rw [required_eq_ok hrequired] at hle
    exact (Nat.le_add_right _ _).trans hle
  exact runs_reallocate hfits hs hroom (hmax.trans (s.handle.maxSize_le_limit E.bytes))

/-- There are no fewer slots than elements afterwards. -/
theorem runs_shrink : (shrinkChecked E).Runs (shrink E) (s, w) := by
  refine runs_held (runs_ite (fun _ => runs_pure _ _) fun _ => runs_ite (fun _ => ?_) fun _ => ?_)
  · exact runs_hold (Region.runs_release hs.valid.region hfits _).inWorld
  · exact runs_reallocate hfits hs (Nat.le_refl _) hs.len_le

end Runs

section Removal

/-- Testing an index first, and reading the element then, is getting the element. -/
theorem runs_access {index : Nat} {next : α → Checked (Sequence α × World σ α) β}
    {next' : α → SequenceAct σ α β} {u : Sequence α × World σ α}
    (h : ∀ x, s.items[index]? = some x → (next x).Runs (next' x) u) :
    (s.accessChecked index >>= next).Runs (Act.ofExcept (s.get index) >>= next') u := by
  rw [accessChecked, checkIndex_eq]
  cases hget : s.get index with
  | error e => rfl
  | ok x =>
      have hx : s.items[index]? = some x := get_eq_ok_iff.mp hget
      have hlt : index < s.len := (List.getElem?_eq_some_iff.mp hx).1
      simp only [bind_assoc]
      exact runs_computed (runs_pure () u) (runs_require hlt (runs_value hx (h x hx)))

variable (hs : s.Countable E)

include hs

/-- The last slot is there if the length is not zero. -/
theorem runs_pop : (popChecked : Checked (Sequence α × World σ α) _).Runs pop (s, w) := by
  refine runs_held ?_
  dsimp only
  by_cases hnone : s.len = 0
  · have hlast : s.items.getLast? = none := List.getLast?_eq_none_iff.mpr (List.length_eq_zero_iff.mp hnone)
    rw [if_pos hnone, hlast]
    exact runs_pure _ _
  · have hpos : 0 < s.len := Nat.pos_of_ne_zero hnone
    have hlt : s.len - 1 < s.items.length := Nat.sub_lt hpos Nat.one_pos
    have hlast : s.items.getLast? = some s.items[s.len - 1] := by
      rw [List.getLast?_eq_getElem?]
      exact List.getElem?_eq_getElem hlt
    rw [if_neg hnone, hlast]
    dsimp only
    rw [List.dropLast_eq_take]
    refine runs_difference hpos (runs_slot ?_ (runs_value (List.getElem?_eq_getElem hlt) ?_))
    · exact (Nat.sub_le _ _).trans hs.valid.len_le
    · exact runs_holdChecked (List.length_take_of_le hlt.le) (runs_inWorld (runs_ofAct _ _) fun _ _ _ => rfl)

/-- The elements behind the one that leaves have a slot to move to. -/
theorem runs_erase (index : Nat) :
    (eraseChecked index : Checked (Sequence α × World σ α) _).Runs (erase index) (s, w) := by
  refine runs_held (runs_access fun x hx => ?_)
  have hlt : index < s.len := (List.getElem?_eq_some_iff.mp hx).1
  have hclosed := Cells.closeUp?_eq (Nat.le_add_right index 1) hlt
  rw [← Nat.sub_sub] at hclosed
  have hlen : (s.items.take index ++ s.items.drop (index + 1)).length = s.len - 1 := by
    rw [List.length_append, List.length_drop, List.length_take_of_le hlt.le]
    change index + (s.len - (index + 1)) = s.len - 1
    omega
  refine runs_sum (Nat.le_trans hlt hs.len_le) (runs_difference hlt.le ?_)
  refine runs_difference (Nat.sub_pos_of_lt hlt) (runs_ofOption hclosed ?_)
  refine runs_difference (Nat.one_le_of_lt hlt) (runs_holdChecked hlen ?_)
  exact runs_inWorld (runs_ofAct _ _) fun _ _ _ => rfl

/-- What is cut off are the elements behind the new length. -/
theorem runs_truncate (n : Nat) : (truncateChecked E n).Runs (truncate E n) (s, w) := by
  refine runs_held (runs_ite (fun _ => runs_pure _ _) fun hmore => ?_)
  have hlt : n < s.len := Nat.lt_of_not_le hmore
  refine runs_slot (hlt.le.trans hs.valid.len_le) (runs_difference hlt.le ?_)
  refine runs_run List.length_drop (runs_holdChecked (List.length_take_of_le hlt.le) ?_)
  exact (runs_ofAct _ _).inWorld

/-- A span within the length has its start before its end. -/
theorem runs_eraseSpan (span : Span) : (eraseSpanChecked E span).Runs (eraseSpan E span) (s, w) := by
  refine runs_held (runs_ofExcept fun bounds hbounds => ?_)
  obtain ⟨start, stop⟩ := bounds
  obtain ⟨hstart, hstop⟩ : start ≤ stop ∧ stop ≤ s.len := Span.bounds_of_within hbounds
  refine runs_ite (fun _ => runs_pure _ _) fun _ => ?_
  have hfront : (s.items.take start).length = start := List.length_take_of_le (hstart.trans hstop)
  have hlen : (s.items.take start ++ s.items.drop stop).length = start + (s.len - stop) := by
    rw [List.length_append, hfront, List.length_drop]
    rfl
  have hsum : start + (s.len - stop) ≤ Size.limit := Nat.le_trans (by omega) hs.len_le
  refine runs_difference hstop (runs_holdChecked hfront ?_)
  refine runs_difference hstart (runs_ofOption (Cells.run?_ofItems hstart hstop) ?_)
  refine Runs.ensuring (runs_ofAct _ _).inWorld fun _ _ _ => ?_
  exact runs_ofOption (Cells.closeUp?_eq hstart hstop) (runs_sum hsum (runs_require hlen (runs_ofAct _ _)))

end Removal

end Growable.Sequence
