import Growable.Proofs.Checked.Sequence
import Growable.Proofs.Sequence.Evolution
import Growable.Proofs.Sequence.Insertion

/-!
# Insertion, checked

The operations that put elements into a sequence, with all that they compute: where the elements behind a
position go and how many they are, the slot that is filled next, the place of an old element while an opening
separates the elements, and the length in the end, also when the opening closes because an element faults.
-/

namespace Growable.Sequence

open Checked

variable {σ α β : Type} (E : Element σ α)

/-- Stores an element in the first free slot. -/
def storeChecked (x : α) : Checked (Sequence α × World σ α) Unit := do
  let s ← ofAct Act.held
  slot s.capacity s.len
  let len ← sum s.len 1
  holdChecked len { s with items := s.items ++ [x] }

/-- Puts one more element at the end, in a larger region. -/
def pushGrownChecked (make : Checked (World σ α) α) : Checked (Sequence α × World σ α) Unit := do
  let s ← ofAct Act.held
  let required ← ofAct (Act.ofExcept (s.required 1))
  let capacity ← ofAct (Act.ofExcept (Capacity.grow s.capacity required (s.maxSize E)))
  let (region, items) ← inWorld do
    ofAct (World.note (.growingToPush s.capacity capacity))
    let staging ← ofAct (Staging.allocate E s.handle.allocator capacity)
    let staging ← staging.seekChecked s.len
    let staging ← staging.appendChecked E make
    let staging ← staging.moveBeforeChecked s.items
    staging.adoptChecked
  installChecked E region items

/-- Puts the element that `make` comes to at the end. -/
def pushByChecked (make : Checked (World σ α) α) : Checked (Sequence α × World σ α) Unit := do
  let s ← ofAct Act.held
  if s.len = s.capacity then
    pushGrownChecked E make
  else
    let x ← inWorld make
    storeChecked x

/-- Takes an element from the caller and puts it at the end, or drops it. -/
def pushChecked (x : α) : Checked (Sequence α × World σ α) Unit := do
  inWorld (ofAct (World.receive x))
  onRefusal (pushByChecked E (pure x)) (inWorld (ofAct (E.drop false x)))

/-- The element that had an index before those from `position` on were shifted by some slots. -/
def formerChecked (cells : Cells α) (position shift index : Nat) : Checked (World σ α) α := do
  let place ← if index < position then pure index else sum index shift
  ofOption (cells.read? place)

/-- Puts `count` elements at a position, in a larger region. -/
def insertGrownChecked (position count : Nat)
    (make : (Nat → Checked (World σ α) α) → Nat → Checked (World σ α) α) :
    Checked (Sequence α × World σ α) Unit := do
  let s ← ofAct Act.held
  let required ← ofAct (Act.ofExcept (s.required count))
  let capacity ← ofAct (Act.ofExcept (Capacity.grow s.capacity required (s.maxSize E)))
  let (region, items) ← inWorld do
    ofAct (World.note (.growingToInsert s.capacity capacity count))
    let staging ← ofAct (Staging.allocate E s.handle.allocator capacity)
    let staging ← staging.seekChecked position
    let former := formerChecked (Cells.ofItems s.len s.items) position 0
    let staging ← staging.extendChecked E (make former) 0 count
    let front ← run position (s.items.take position)
    let staging ← staging.moveBeforeChecked front
    let rest ← difference s.len position
    let back ← run rest (s.items.drop position)
    let staging ← staging.moveAfterChecked back
    staging.adoptChecked
  require (items.length = required)
  installChecked E region items

/-- Shifts the elements from a position on aside, to make an opening for `count` new ones. -/
def openChecked (s : Sequence α) (position count : Nat) :
    Checked (Sequence α × World σ α) (Opening α) := do
  let tail ← difference s.len position
  let target ← sum position count
  let cells ← ofOption ((Cells.ofItems (s.len + count) s.items).copy? position target tail)
  return ⟨cells, position, count, 0, tail⟩

/-- One more new element in an opening. -/
def fillChecked (o : Opening α) (x : α) : Checked (Sequence α × World σ α) (Opening α) := do
  let place ← sum o.position o.filled
  let cells ← ofOption (o.cells.write? place x)
  let filled ← sum o.filled 1
  return { o with cells, filled }

/-- Closes an opening: moves the elements that were shifted aside to behind the ones that are filled. -/
def closeChecked (o : Opening α) : Checked (Sequence α × World σ α) Unit := do
  let stop ← sum o.position o.filled
  let source ← if o.filled = o.count then pure stop else sum o.position o.count
  let len ← sum stop o.tail
  let items ← ofOption
    (if o.filled = o.count then o.cells.run? 0 len else o.cells.closeUp? stop source o.tail)
  let s ← ofAct Act.held
  holdChecked len { s with items }

/-- Puts the element that `make` comes to at a position. -/
def insertByChecked (position : Nat) (make : Checked (World σ α) α) :
    Checked (Sequence α × World σ α) Unit := do
  let s ← ofAct Act.held
  ofAct (Act.ofExcept (checkPosition position s.len))
  if s.len = s.capacity then
    insertGrownChecked E position 1 fun _ _ => make
  else
    let x ← inWorld make
    require (s.len < s.capacity)
    let o ← openChecked s position 1
    let o ← fillChecked o x
    closeChecked o

/-- Takes an element from the caller and puts it at a position, or drops it. -/
def insertChecked (position : Nat) (x : α) : Checked (Sequence α × World σ α) Unit := do
  inWorld (ofAct (World.receive x))
  onRefusal (insertByChecked E position (pure x)) (inWorld (ofAct (E.drop false x)))

/-- Makes `count` more elements in an opening, and closes it, whatever happens. -/
def fillOpeningChecked (make : (Nat → Checked (World σ α) α) → Nat → Checked (World σ α) α) :
    Nat → Opening α → Checked (Sequence α × World σ α) Unit
  | 0, o => closeChecked o
  | count + 1, o => do
    let x ← onFault (inWorld (make (formerChecked o.cells o.position o.count) o.filled)) (closeChecked o)
    let o ← fillChecked o x
    fillOpeningChecked make count o

/-- Puts `count` elements at a position.  What makes them is told how to find an old element. -/
def insertMadeChecked (position count : Nat)
    (make : (Nat → Checked (World σ α) α) → Nat → Checked (World σ α) α) :
    Checked (Sequence α × World σ α) Unit := do
  let s ← ofAct Act.held
  ofAct (Act.ofExcept (checkPosition position s.len))
  if count = 0 then
    return
  let required ← ofAct (Act.ofExcept (s.required count))
  ofAct (Act.ofExcept (Capacity.check required (s.maxSize E)))
  if s.capacity < required then
    insertGrownChecked E position count make
  else
    let o ← openChecked s position count
    holdChecked position { s with items := s.items.take position }
    fillOpeningChecked make count o

/-- Puts `count` clones of an element at a position. -/
def insertCopiesChecked (position count : Nat) (x : α) : Checked (Sequence α × World σ α) Unit :=
  insertMadeChecked E position count fun _ _ => ofAct (E.clone x)

/-- Puts clones of some elements at a position. -/
def insertAllChecked (position : Nat) (xs : List α) : Checked (Sequence α × World σ α) Unit :=
  insertMadeChecked E position xs.length fun _ k => do
    let x ← ofOption xs[k]?
    ofAct (E.clone x)

/-- Puts clones of the sequence's own elements in a span at a position. -/
def insertOwnChecked (position : Nat) (span : Span) : Checked (Sequence α × World σ α) Unit := do
  let s ← ofAct Act.held
  let (start, stop) ← ofAct (Act.ofExcept (span.within s.len))
  let count ← difference stop start
  insertMadeChecked E position count fun former k => do
    let index ← sum start k
    let x ← former index
    ofAct (E.clone x)

/-- Puts clones of some elements at the end. -/
def extendAllChecked (xs : List α) : Checked (Sequence α × World σ α) Unit := do
  let s ← ofAct Act.held
  insertAllChecked E s.len xs

/-! ## One element -/

variable {E} {s : Sequence α} {w : World σ α} (hfits : E.toShape.Fits) (hs : s.Countable E)

/-- The slot behind the last element is within the capacity. -/
theorem runs_store (x : α) (hroom : s.len < s.capacity) (hcapacity : s.capacity ≤ Size.limit) :
    (storeChecked x : Checked (Sequence α × World σ α) _).Runs (store x) (s, w) := by
  refine runs_held (runs_slot hroom.le (runs_sum (Nat.le_trans hroom hcapacity) ?_))
  rw [Act.require_eq_pure hroom, pure_bind]
  have hlen : (s.items ++ [x]).length = s.len + 1 := List.length_append
  exact runs_require hlen (runs_ofAct _ _)

include hfits hs

/-- The new element, and the old ones before it, have their slots in the new region. -/
theorem runs_pushGrown {make : Checked (World σ α) α} {make' : Act (World σ α) α}
    (hmake : ∀ w, make.Runs make' w) : (pushGrownChecked E make).Runs (pushGrown E make') (s, w) := by
  refine runs_held (runs_ofExcept fun required hrequired => runs_ofExcept fun capacity hgrow => ?_)
  obtain ⟨hle, hmax⟩ := Capacity.grow_bounds hgrow
  have hroom : s.len + 1 ≤ capacity := required_eq_ok hrequired ▸ hle
  have hcapacity : capacity ≤ Size.limit := hmax.trans (s.handle.maxSize_le_limit E.bytes)
  refine runs_inWorld (runs_act fun _ _ _ => ?_) fun r w' _ => runs_install hfits hs r.1 r.2
  refine Staging.runs_allocate _ hcapacity fun staging w₂ hstaging hstart hnone hsize => ?_
  have hlen : s.len ≤ staging.region.capacity := hsize ▸ (Nat.le_succ _).trans hroom
  have hplaced := hstaging.seek hnone hlen
  have hspace : { staging with start := s.len }.stop < staging.region.capacity := by
    change s.len + staging.elements.length < _
    rw [hnone, hsize]
    exact hroom
  refine Staging.runs_seek hnone hlen (Staging.runs_append hfits hplaced hspace (hmake _) fun x w₃ hmade => ?_)
  have hstart' : s.len - s.items.length = 0 := Nat.sub_self _
  exact Staging.runs_moveBefore hmade (Nat.le_refl _) (Staging.runs_adopt hstart')

/-- A push has a slot, after growing if there was none. -/
theorem runs_pushBy {make : Checked (World σ α) α} {make' : Act (World σ α) α}
    (hmake : ∀ w, make.Runs make' w) : (pushByChecked E make).Runs (pushBy E make') (s, w) := by
  refine runs_held (runs_ite (fun _ => runs_pushGrown hfits hs hmake) fun hfull => ?_)
  have hroom : s.len < s.capacity := Nat.lt_of_le_of_ne hs.valid.len_le hfull
  exact runs_inWorld (hmake w) fun x w' _ => runs_store x hroom hs.capacity_le

theorem runs_push (x : α) : (pushChecked E x).Runs (push E x) (s, w) := by
  refine runs_inWorld (runs_ofAct _ _) fun _ w' _ => ?_
  exact (runs_pushBy hfits hs fun w => runs_pure x w).onRefusal fun _ _ _ => (runs_ofAct _ _).inWorld

omit hfits hs

/-! ## Several elements in a larger region -/

/-- What is put together around a position is as long as it has to be. -/
theorem yields_grown (allocator : Allocator) (capacity position count : Nat) (note : Note)
    (make : Nat → Act (World σ α) α) (front back : List α) (p : Prop) :
    Act.Yields (fun _ => p) (fun r => r.2.length = front.length + count + back.length)
      (do
        World.note note
        let staging ← Staging.allocate E allocator capacity
        let staging ← staging.seek position
        let staging ← staging.extend E make 0 count
        let staging ← staging.moveBefore front
        let staging ← staging.moveAfter back
        staging.adopt : Act (World σ α) (Region × List α)) := by
  have hempty : Act.Yields (fun _ => p) (fun staging => staging.elements = [])
      (Staging.allocate E allocator capacity) :=
    (Act.keeps_const p _).bind_yields fun region => Act.yields_pure rfl
  have hseek : ∀ staging : Staging α, staging.elements = [] →
      Act.Yields (fun _ => p) (fun staging => staging.elements = [])
        (staging.seek position : Act (World σ α) _) :=
    fun staging hnone => (Act.keeps_const p _).bind_yields fun _ =>
      (Act.keeps_const p _).bind_yields fun _ => Act.yields_pure hnone
  refine (Act.keeps_const p _).bind_yields fun _ => hempty.bind fun staging hnone => ?_
  refine (hseek staging hnone).bind fun staging hnone => ?_
  refine (Staging.yields_extend_all staging make 0 count p).bind fun staging' hmade => ?_
  obtain ⟨xs, rfl, rfl⟩ := hmade
  refine Act.Yields.bind (P := fun staging => staging.elements = front ++ xs) ?_ fun staging hfront => ?_
  · exact (Act.keeps_const p _).bind_yields fun _ => Act.yields_pure (by rw [hnone]; rfl)
  refine Act.Yields.bind (P := fun staging => staging.elements = front ++ xs ++ back) ?_
    fun staging hall => ?_
  · exact (Act.keeps_const p _).bind_yields fun _ => Act.yields_pure (by rw [hfront])
  refine (Act.keeps_const p _).bind_yields fun _ => Act.yields_pure ?_
  rw [hall, List.length_append, List.length_append]

/-- The reader finds the elements wherever they are, and whatever the world is like. -/
def Finds (former : Nat → Checked (World σ α) α) (items : List α) : Prop :=
  ∀ index x, items[index]? = some x → ∀ w, (former index).Runs (pure x) w

/-- With a reader that finds the old elements, a checked act makes what a plain one does that knows them. -/
def Follows (make : (Nat → Checked (World σ α) α) → Nat → Checked (World σ α) α)
    (make' : (Nat → Option α) → Nat → Act (World σ α) α) (items : List α) (count : Nat) : Prop :=
  ∀ former, Finds former items → ∀ k < count, ∀ w,
    (make former k).Runs (make' (fun index => items[index]?) k) w

/-- An old element is found where it is, and its place is a size. -/
theorem finds_former {cells : Cells α} {items : List α} {position shift : Nat}
    (hcells : cells.former? position shift = fun index => items[index]?)
    (hlimit : items.length + shift ≤ Size.limit) :
    Finds (formerChecked cells position shift : Nat → Checked (World σ α) α) items := by
  intro index x hx w
  have hindex : index < items.length := (List.getElem?_eq_some_iff.mp hx).1
  have hread : cells.read? (if index < position then index else index + shift) = some x := by
    rw [← hx]
    exact congrFun hcells index
  unfold formerChecked
  by_cases hbefore : index < position
  · rw [if_pos hbefore] at hread
    rw [if_pos hbefore, pure_bind]
    exact congrArg (Option.map _) hread
  · rw [if_neg hbefore] at hread
    rw [if_neg hbefore]
    exact runs_sum (by omega) (congrArg (Option.map _) hread)

include hfits hs

/-- The old elements have their slots in the new region before and behind the new ones. -/
theorem runs_insertGrown {position count : Nat}
    {make : (Nat → Checked (World σ α) α) → Nat → Checked (World σ α) α}
    {make' : (Nat → Option α) → Nat → Act (World σ α) α} (hposition : position ≤ s.len)
    (hmake : Follows make make' s.items count) :
    (insertGrownChecked E position count make).Runs (insertGrown E position count make') (s, w) := by
  have hfinds : Finds (formerChecked (Cells.ofItems s.len s.items) position 0 : Nat → Checked (World σ α) α)
      s.items := finds_former (Cells.ofItems_former? s.items position) hs.len_le
  refine Eq.trans ?_ (congrArg some (insertGrown_eq_former make').symm)
  change (insertGrownChecked E position count make).Runs
    (insertGrown E position count fun _ => make' fun index => s.items[index]?) (s, w)
  refine runs_held (runs_ofExcept fun required hrequired => runs_ofExcept fun capacity hgrow => ?_)
  obtain ⟨hle, hmax⟩ := Capacity.grow_bounds hgrow
  have hrequired' : required = s.len + count := required_eq_ok hrequired
  have hcapacity : capacity ≤ Size.limit := hmax.trans (s.handle.maxSize_le_limit E.bytes)
  have hfront : (s.items.take position).length = position := List.length_take_of_le hposition
  have hback : (s.items.drop position).length = s.len - position := List.length_drop
  dsimp only
  refine Runs.bind_of (Runs.inWorld (runs_act fun _ w₁ _ => ?_)) (Act.Yields.inWorld
    (J := fun u : Sequence α × World σ α => u.1 = s) (fun t => yields_grown _ _ _ _ _ _ _ _ (t = s)) (s, w) rfl)
    fun r u hr => ?_
  · refine Staging.runs_allocate _ hcapacity fun staging w₂ hstaging hstart hnone hsize => ?_
    have hlen : position ≤ staging.region.capacity := by omega
    have hplaced := hstaging.seek hnone hlen
    have hstop : { staging with start := position }.stop = position := by
      change position + staging.elements.length = position
      rw [hnone]
      rfl
    refine Staging.runs_seek hnone hlen (Staging.runs_extend hfits 0 count hplaced ?_ ?_ ?_)
    · rw [hstop]
      change position + count ≤ staging.region.capacity
      omega
    · exact fun k hk w => hmake _ hfinds k (by omega) w
    · intro xs w₃ hxs hmade
      have hbefore : position - (s.items.take position).length = 0 := by rw [hfront, Nat.sub_self]
      refine runs_run hfront (Staging.runs_moveBefore hmade hfront.le (runs_difference hposition ?_))
      refine runs_run hback (Staging.runs_moveAfter ⟨⟨hmade.valid.region, ?_⟩, hmade.capacity_le⟩ ?_
        (Staging.runs_adopt hbefore))
      all_goals
        simp only [Staging.stop, List.length_append, hfront, hnone, List.nil_append, hxs, hback,
          hsize]
        omega
  · obtain ⟨hlength, hsame⟩ := hr
    have hparts : r.2.length = required := by
      rw [hlength, hrequired']
      omega
    obtain ⟨t, w'⟩ := u
    cases hsame
    exact runs_both hparts (runs_install hfits hs r.1 r.2)

omit hfits hs

/-! ## In an opening -/

variable {o : Opening α} {front filled back : List α} {u : Sequence α × World σ α}

/-- An opening is made with all of its numbers. -/
theorem runs_open {position count : Nat} {next : Opening α → Checked (Sequence α × World σ α) β}
    {act : SequenceAct σ α β} (hposition : position ≤ s.len) (hspace : s.len + count ≤ Size.limit)
    (hnext : ∀ o : Opening α, o.count = count → o.Shows (s.items.take position) [] (s.items.drop position) →
      (next o).Runs act u) : (openChecked s position count >>= next).Runs act u := by
  obtain ⟨o, ho, hcount, hshows⟩ := Opening.of?_shows hposition count
  obtain ⟨cells, hcells, rfl⟩ := Opening.of?_eq_some ho
  simp only [openChecked, bind_assoc, pure_bind]
  exact runs_difference hposition (runs_sum (by omega) (runs_value hcells (hnext _ hcount hshows)))

/-- An opening that has room for one more element goes on showing what it is filled with. -/
theorem runs_fill {next : Opening α → Checked (Sequence α × World σ α) β} {act : SequenceAct σ α β}
    (h : o.Shows front filled back) (hroom : filled.length < o.count)
    (hlimit : front.length + o.count + back.length ≤ Size.limit) (x : α)
    (hnext : ∀ o' : Opening α, o'.count = o.count → o'.Shows front (filled ++ [x]) back →
      (next o').Runs act u) : (fillChecked o x >>= next).Runs act u := by
  obtain ⟨o', ho', hcount, hshows⟩ := h.fill hroom x
  obtain ⟨cells, hcells, rfl⟩ := Opening.fill?_eq_some ho'
  have hposition := h.position_eq
  have hfilled := h.filled_eq
  simp only [fillChecked, bind_assoc, pure_bind]
  exact runs_sum (by omega) (runs_value hcells (runs_sum (by omega) (hnext _ hcount hshows)))

/-- An opening closes around what it is filled with, and the length is counted. -/
theorem runs_close (h : o.Shows front filled back)
    (hlimit : front.length + o.count + back.length ≤ Size.limit) :
    (closeChecked o).Runs (settle (front ++ filled ++ back)) u := by
  have hposition := h.position_eq
  have hfilled := h.filled_eq
  have htail := h.tail_eq
  have hle := h.filled_le
  have hclosed := h.closed?_eq
  have hlen : (front ++ filled ++ back).length = o.position + o.filled + o.tail := by
    rw [List.length_append, List.length_append, hposition, hfilled, htail]
  unfold Opening.closed? at hclosed
  dsimp only at hclosed
  unfold closeChecked
  refine runs_sum (by omega) ?_
  by_cases hall : o.filled = o.count
  · rw [if_pos hall] at hclosed
    simp only [if_pos hall, pure_bind]
    exact runs_sum (by omega) (runs_value hclosed (runs_held (runs_require hlen (runs_ofAct _ _))))
  · rw [if_neg hall] at hclosed
    simp only [if_neg hall]
    refine runs_sum (by omega) (runs_sum (by omega) ?_)
    exact runs_value hclosed (runs_held (runs_require hlen (runs_ofAct _ _)))

/-- What is made in an opening is made with all numbers computed, and so is what is left after a fault. -/
theorem runs_fillOpening {make : (Nat → Checked (World σ α) α) → Nat → Checked (World σ α) α}
    {make' : (Nat → Option α) → Nat → Act (World σ α) α} (count : Nat) (h : o.Shows front filled back)
    (hcount : filled.length + count = o.count)
    (hlimit : front.length + o.count + back.length ≤ Size.limit)
    (hmake : Follows make make' (front ++ back) o.count) :
    (fillOpeningChecked make count o).Runs
      (fillBetween (make' fun index => (front ++ back)[index]?) front back count filled) u := by
  induction count generalizing o filled u with
  | zero => exact runs_close h hlimit
  | succ count ih =>
      have hroom : filled.length < o.count := by omega
      have hfinds : Finds (formerChecked o.cells o.position o.count : Nat → Checked (World σ α) α)
          (front ++ back) := by
        refine finds_former h.former?_eq ?_
        rw [List.length_append]
        omega
      rw [fillOpeningChecked, h.filled_eq, fillBetween]
      refine Runs.bind (Runs.onFault ?_ fun _ _ _ => runs_close h hlimit) fun x t _ => ?_
      · exact (hmake _ hfinds filled.length hroom u.2).inWorld
      refine runs_fill h hroom hlimit x fun o' hcount' hshows => ?_
      refine ih hshows ?_ (hcount' ▸ hlimit) (hcount' ▸ hmake)
      rw [List.length_append, List.length_singleton, hcount']
      omega

include hfits hs

/-- An element that a closure makes has a slot between the others. -/
theorem runs_insertBy (position : Nat) {make : Checked (World σ α) α} {make' : Act (World σ α) α}
    (hmake : ∀ w, make.Runs make' w) :
    (insertByChecked E position make).Runs (insertBy E position make') (s, w) := by
  rw [insertBy_eq]
  refine runs_held (runs_ofExcept fun _ hcheck => ?_)
  have hposition : position ≤ s.len := le_of_checkPosition_eq_ok hcheck
  refine runs_ite (fun _ => ?_) fun hfull => ?_
  · exact runs_insertGrown hfits hs hposition fun _ _ _ _ w => hmake w
  have hroom : s.len < s.capacity := Nat.lt_of_le_of_ne hs.valid.len_le hfull
  have hspace : s.len + 1 ≤ Size.limit := Nat.le_trans hroom hs.capacity_le
  have hparts : (s.items.take position).length + 1 + (s.items.drop position).length ≤ Size.limit := by
    rw [List.length_take_of_le hposition, List.length_drop]
    change position + 1 + (s.len - position) ≤ Size.limit
    omega
  refine runs_inWorld (hmake w) fun x w' _ => runs_both hroom ?_
  refine runs_open hposition hspace fun o hcount hshows => ?_
  refine runs_fill hshows (hcount ▸ Nat.zero_lt_one) (hcount ▸ hparts) x fun o' hcount' hshows' => ?_
  exact runs_close hshows' (hcount' ▸ hcount ▸ hparts)

theorem runs_insert (position : Nat) (x : α) :
    (insertChecked E position x).Runs (insert E position x) (s, w) := by
  refine runs_inWorld (runs_ofAct _ _) fun _ w' _ => ?_
  exact (runs_insertBy hfits hs position fun w => runs_pure x w).onRefusal
    fun _ _ _ => (runs_ofAct _ _).inWorld

/-! ## Several elements -/

/-- The new elements have their slots between the others, in the same region or in a new one. -/
theorem runs_insertMade (position count : Nat)
    {make : (Nat → Checked (World σ α) α) → Nat → Checked (World σ α) α}
    {make' : (Nat → Option α) → Nat → Act (World σ α) α} (hmake : Follows make make' s.items count) :
    (insertMadeChecked E position count make).Runs (insertMade E position count make') (s, w) := by
  rw [insertMade_eq]
  refine runs_held (runs_ofExcept fun _ hcheck => runs_ite (fun _ => runs_pure _ _) fun _ => ?_)
  have hposition : position ≤ s.len := le_of_checkPosition_eq_ok hcheck
  refine runs_ofExcept fun required hrequired => runs_ofExcept fun _ _ => runs_ite (fun _ => ?_) fun hroom => ?_
  · exact runs_insertGrown hfits hs hposition hmake
  have hspace : s.len + count ≤ Size.limit := by
    rw [← required_eq_ok hrequired]
    exact (Nat.le_of_not_lt hroom).trans hs.capacity_le
  have hfront : (s.items.take position).length = position := List.length_take_of_le hposition
  have hparts : (s.items.take position).length + count + (s.items.drop position).length ≤ Size.limit := by
    rw [hfront, List.length_drop]
    change position + count + (s.len - position) ≤ Size.limit
    omega
  refine runs_open hposition hspace fun o hcount hshows => runs_holdChecked hfront ?_
  have hwhole := List.take_append_drop position s.items
  have hfill := runs_fillOpening (u := ({ s with items := s.items.take position }, w)) count hshows
    ((Nat.zero_add count).trans hcount.symm) (hcount ▸ hparts) (hwhole.symm ▸ hcount ▸ hmake)
  rwa [hwhole] at hfill

theorem runs_insertCopies (position count : Nat) (x : α) :
    (insertCopiesChecked E position count x).Runs (insertCopies E position count x) (s, w) :=
  runs_insertMade hfits hs position count fun _ _ _ _ w => runs_ofAct _ w

theorem runs_insertAll (position : Nat) (xs : List α) :
    (insertAllChecked E position xs).Runs (insertAll E position xs) (s, w) :=
  runs_insertMade hfits hs position xs.length fun _ _ _ hk w =>
    runs_ofOption (List.getElem?_eq_getElem hk) (runs_ofAct _ w)

/-- So have clones of elements of the sequence, which are found wherever the opening has moved them. -/
theorem runs_insertOwn (position : Nat) (span : Span) :
    (insertOwnChecked E position span).Runs (insertOwn E position span) (s, w) := by
  refine runs_held (runs_ofExcept fun bounds hbounds => ?_)
  obtain ⟨start, stop⟩ := bounds
  obtain ⟨hstart, hstop⟩ : start ≤ stop ∧ stop ≤ s.len := Span.bounds_of_within hbounds
  have hlimit := hs.len_le
  refine runs_difference hstart (runs_insertMade hfits hs position _ fun former hfinds k hk w => ?_)
  have hlt : start + k < s.items.length := by
    change start + k < s.len
    omega
  have hx : s.items[start + k]? = some s.items[start + k] := List.getElem?_eq_getElem hlt
  have hplain : Act.ofOption .source s.items[start + k]? w = .done s.items[start + k] w := by
    rw [hx]
    rfl
  exact runs_sum (by omega) (runs_done (hfinds _ _ hx w) hplain (runs_ofAct _ w))

/-- The position of an extension is the length. -/
theorem runs_extendAll (xs : List α) : (extendAllChecked E xs).Runs (extendAll E xs) (s, w) :=
  runs_held (runs_insertAll hfits hs s.len xs)

end Growable.Sequence
