import Growable.Proofs.Checked.Feed

/-!
# Resizing and creation, checked

The elements that are missing to a new length are made behind the old ones, slot by slot, and dropped from
the first of these slots on when one of them faults; or they are made in a new region, as are the elements of
a new sequence.  What was begun and given up is disposed of, which relies on the sequence being valid, with a
capacity that is a size, however far the work came.
-/

namespace Growable.Sequence

open Checked

variable {σ α β : Type} (E : Element σ α)

/-! ## Resizing -/

/-- Drops the elements that were made from the slot `start` on. -/
def dropTailChecked (capacity start stop : Nat) (made : List α) : Checked (World σ α) Unit := do
  slot capacity start
  let count ← difference stop start
  let tail ← run count made
  ofAct (E.dropAll true tail)

/-- Makes `count` elements, numbered from `k`, in the slots from `stop` on; those `made` before began at the
slot `start`. -/
def makeTailChecked (make : Nat → Checked (World σ α) α) (capacity start : Nat) (k stop : Nat) :
    Nat → List α → Checked (World σ α) (List α)
  | 0, made => return made
  | count + 1, made => do
    let x ← onFault
      (do
        let x ← make k
        require (stop < capacity)
        slot capacity stop
        return x)
      (dropTailChecked E capacity start stop made)
    let stop ← sum stop 1
    makeTailChecked make capacity start (k + 1) stop count (made ++ [x])

/-- Brings the sequence to a length, with the elements that `make` comes to where some are missing. -/
def resizeMadeChecked (n : Nat) (make : Nat → Checked (World σ α) α) :
    Checked (Sequence α × World σ α) Unit := do
  let s ← ofAct Act.held
  if n ≤ s.len then
    truncateChecked E n
  else
    ofAct (Act.ofExcept (Capacity.check n (s.maxSize E)))
    let count ← difference n s.len
    if n ≤ s.capacity then
      let tail ← inWorld (makeTailChecked E make s.capacity s.len 0 s.len count [])
      holdChecked n { s with items := s.items ++ tail }
    else
      let (region, items) ← inWorld do
        let staging ← ofAct (Staging.allocate E s.handle.allocator n)
        let staging ← staging.seekChecked s.len
        let staging ← staging.extendChecked E make 0 count
        let staging ← staging.moveBeforeChecked s.items
        staging.adoptChecked
      installChecked E region items

/-- Brings the sequence to a length, with what a closure returns where elements are missing. -/
def resizeByChecked (n : Nat) (maker : Maker α) : Checked (Sequence α × World σ α) Unit :=
  resizeMadeChecked E n fun k => ofAct (maker.call k)

/-- Brings the sequence to a length, with default elements where some are missing. -/
def resizeDefaultChecked (n : Nat) : Checked (Sequence α × World σ α) Unit :=
  resizeMadeChecked E n fun _ => ofAct E.default

/-- Takes an element from the caller and brings the sequence to a length, with clones of the element where
some are missing. -/
def resizeChecked (n : Nat) (x : α) : Checked (Sequence α × World σ α) Unit := do
  inWorld (ofAct (World.receive x))
  ensuring (resizeMadeChecked E n fun _ => ofAct (E.clone x)) fun unwinding =>
    inWorld (ofAct (E.drop unwinding x))

/-! ## Creation -/

/-- Works on a new sequence, and comes to it; it is disposed of when the work is refused or faults. -/
def buildChecked (handle : Handle) (work : Checked (Sequence α × World σ α) β) :
    Checked (World σ α) (Sequence α × β) :=
  owning (empty handle) (fun unwinding s => s.disposeChecked E unwinding) work

/-- A sequence without elements, with room for exactly `capacity` of them. -/
def withCapacityChecked (capacity : Nat) (handle : Handle) : Checked (World σ α) (Sequence α) := do
  let (s, _) ← buildChecked E handle (reserveChecked E capacity)
  return s

/-- Elements that are made in a region of exactly their number. -/
def madeChecked (handle : Handle) (count : Nat) (make : Nat → Checked (World σ α) α) :
    Checked (World σ α) (Sequence α) := do
  let staging ← ofAct (Staging.allocate E handle.allocator count)
  let staging ← staging.extendChecked E make 0 count
  let (region, items) ← staging.adoptChecked
  return ⟨region, items, handle⟩

/-- A sequence of `count` clones of an element. -/
def replicateChecked (count : Nat) (x : α) (handle : Handle) : Checked (World σ α) (Sequence α) := do
  ofAct (Act.ofExcept (Capacity.check count (handle.maxSize E.bytes)))
  madeChecked E handle count fun _ => ofAct (E.clone x)

/-- A copy of a sequence. -/
def copyChecked (s : Sequence α) : Checked (World σ α) (Sequence α) :=
  madeChecked E s.handle s.len fun k => do
    let x ← ofOption s.items[k]?
    ofAct (E.clone x)

/-- A copy that the caller takes for granted. -/
def copyDemandedChecked (s : Sequence α) : Checked (World σ α) (Sequence α) := fun w =>
  match s.copyChecked E w with
  | some (.refused e w) => some (.faulted (.copyRefused e) w)
  | outcome => outcome

/-! ## Nothing fails -/

variable {E} {s : Sequence α} {w : World σ α} {m : Multiset (Asset α)}

/-- Each element behind the first ones is made in a slot within the capacity. -/
theorem runs_makeTail {make : Nat → Checked (World σ α) α} {make' : Nat → Act (World σ α) α}
    {capacity start : Nat} (hmake : ∀ k w, (make k).Runs (make' k) w) (hcapacity : capacity ≤ Size.limit)
    (k count : Nat) {made : List α} (hroom : start + made.length + count ≤ capacity) :
    (makeTailChecked E make capacity start k (start + made.length) count made).Runs
      (makeTail E make' capacity start k count made) w := by
  induction count generalizing k made w with
  | zero => exact runs_pure _ _
  | succ count ih =>
      have hlt : start + made.length < capacity := by omega
      refine Runs.bind (Runs.onFault ?_ fun _ w' _ => ?_) fun x w' _ => runs_sum (by omega) ?_
      · refine (hmake k w).bind fun x w' _ => runs_both hlt (runs_slot hlt.le (runs_pure x w'))
      · refine runs_slot (by omega) (runs_difference (Nat.le_add_right _ _) ?_)
        exact runs_run (Nat.add_sub_cancel_left _ _).symm (runs_ofAct _ _)
      · have hlen : start + made.length + 1 = start + (made ++ [x]).length := by
          rw [List.length_append, List.length_singleton, Nat.add_assoc]
        rw [hlen]
        exact ih (k + 1) (by omega)

/-- As many elements come as were to be made. -/
theorem yields_makeTail (make : Nat → Act (World σ α) α) (capacity start k count : Nat) (made : List α)
    (p : Prop) :
    Act.Yields (fun _ => p) (fun tail => tail.length = made.length + count)
      (makeTail E make capacity start k count made) := by
  induction count generalizing k made with
  | zero => exact Act.yields_pure rfl
  | succ count ih =>
      refine (Act.keeps_const p _).bind_yields fun x => (ih (k + 1) (made ++ [x])).imp fun tail htail => ?_
      rw [htail, List.length_append, List.length_singleton, Nat.add_assoc, Nat.add_comm 1]

section Operations

variable (hfits : E.toShape.Fits)

include hfits

section Resize

variable (hs : s.Countable E)

include hs

/-- The elements that fill a sequence up have slots within the room that was reserved. -/
theorem runs_resizeMade (n : Nat) {make : Nat → Checked (World σ α) α} {make' : Nat → Act (World σ α) α}
    (hmake : ∀ k w, (make k).Runs (make' k) w) :
    (resizeMadeChecked E n make).Runs (resizeMade E n make') (s, w) := by
  refine runs_held (runs_ite (fun _ => runs_truncate hs n) fun hlong => runs_ofExcept fun _ hcheck => ?_)
  have hlen : s.len ≤ n := Nat.le_of_not_le hlong
  have hlimit : n ≤ Size.limit := capacity_le_limit ⟨n, none⟩ (Capacity.check_eq_ok_iff.mp hcheck)
  refine runs_difference hlen (runs_ite (fun hroom : n ≤ s.capacity => ?_) fun _ => ?_)
  · have htail := yields_makeTail (E := E) make' s.capacity s.len 0 (n - s.len) []
    refine Runs.bind_of (Runs.inWorld ?_) (Act.Yields.inWorld
      (J := fun u : Sequence α × World σ α => u.1 = s) (fun t => htail (t = s)) (s, w) rfl) fun tail u hu => ?_
    · have hspace : s.len + ([] : List α).length + (n - s.len) ≤ s.capacity := by
        rw [List.length_nil]
        omega
      exact runs_makeTail hmake hs.capacity_le 0 (n - s.len) hspace
    · obtain ⟨hcount, -⟩ := hu
      refine runs_require ?_ (runs_ofAct _ _)
      change (s.items ++ tail).length = n
      rw [List.length_append, hcount]
      change s.len + (0 + (n - s.len)) = n
      omega
  · refine runs_inWorld ?_ fun r w' _ => runs_install hfits hs r.1 r.2
    refine Staging.runs_allocate _ hlimit fun staging w₂ hstaging hstart hnone hsize => ?_
    have hplace : s.len ≤ staging.region.capacity := hsize ▸ hlen
    have hplaced := hstaging.seek hnone hplace
    have hspace : { staging with start := s.len }.stop + (n - s.len) ≤ staging.region.capacity := by
      change s.len + staging.elements.length + (n - s.len) ≤ _
      rw [hnone, List.length_nil, hsize]
      omega
    refine Staging.runs_seek hnone hplace (Staging.runs_extend hfits 0 _ hplaced hspace
      (fun k _ w => hmake k w) fun xs w₃ _ hmade => ?_)
    have hstart' : s.len - s.items.length = 0 := Nat.sub_self _
    exact Staging.runs_moveBefore hmade (Nat.le_refl _) (Staging.runs_adopt hstart')

theorem runs_resizeBy (n : Nat) (maker : Maker α) :
    (resizeByChecked E n maker).Runs (resizeBy E n maker) (s, w) :=
  runs_resizeMade hfits hs n fun _ w => runs_ofAct _ w

theorem runs_resizeDefault (n : Nat) : (resizeDefaultChecked E n).Runs (resizeDefault E n) (s, w) :=
  runs_resizeMade hfits hs n fun _ w => runs_ofAct _ w

theorem runs_resize (n : Nat) (x : α) : (resizeChecked E n x).Runs (resize E n x) (s, w) := by
  refine runs_inWorld (runs_ofAct _ _) fun _ w' _ => ?_
  exact (runs_resizeMade hfits hs n fun _ w => runs_ofAct _ w).ensuring
    fun _ _ _ => (runs_ofAct _ _).inWorld

end Resize

/-- What was begun can be disposed of, if it is a valid sequence with as many slots as a size can express. -/
theorem runs_build {handle : Handle} {work : Checked (Sequence α × World σ α) β} {work' : SequenceAct σ α β}
    (h : work.Runs work' (empty handle, w))
    (hcountable : (work' (empty handle, w)).state.1.Countable E) :
    (buildChecked E handle work).Runs (build E handle work') w := by
  refine h.owning fun unwinding u hu => ?_
  subst hu
  exact runs_dispose hfits hcountable.valid unwinding

omit hfits in
/-- A new sequence has no capacity. -/
theorem counted_empty (handle : Handle) (h : w.Owns m) : Counted E m (empty handle, w) :=
  ⟨sound_empty handle h, Nat.zero_le _⟩

omit hfits in
/-- However an operation that keeps the sequence counted ends, what is left can be counted. -/
theorem Counted.countable_state {act : SequenceAct σ α β} {u : Sequence α × World σ α}
    {P : β → Sequence α → Prop} {Q : SequenceError → Sequence α → Prop}
    (h : (act u).Meets ⟨fun b u => Counted E m u ∧ P b u.1, fun e u => Counted E m u ∧ Q e u.1,
      fun _ u => Counted E m u⟩) : (act u).state.1.Countable E := by
  cases hact : act u with
  | done b t =>
      rw [hact] at h
      exact h.1.countable
  | refused e t =>
      rw [hact] at h
      exact h.1.countable
  | faulted f t =>
      rw [hact] at h
      exact Counted.countable h

/-- A new sequence only reserves. -/
theorem runs_withCapacity (capacity : Nat) (handle : Handle) (h : w.Owns m) :
    (withCapacityChecked E capacity handle).Runs (withCapacity E capacity handle) w := by
  have hempty := counted_empty (E := E) handle h
  have hkept := hempty.meets (reserve_meets capacity hempty.sound)
    (keeps_reserve (fun _ _ => trivial) (Nat.le_refl _) capacity_le_limit capacity)
  refine runs_answered _ (runs_build hfits ?_ (Counted.countable_state hkept))
  exact runs_reserve hfits hempty.countable capacity

/-- A new sequence has exactly the slots that it fills. -/
theorem runs_made (handle : Handle) {count : Nat} (hcount : count ≤ Size.limit)
    {make : Nat → Checked (World σ α) α} {make' : Nat → Act (World σ α) α}
    (hmake : ∀ k < count, ∀ w, (make k).Runs (make' k) w) :
    (madeChecked E handle count make).Runs (do
      let staging ← Staging.allocate E handle.allocator count
      let staging ← staging.extend E make' 0 count
      let (region, items) ← staging.adopt
      return (⟨region, items, handle⟩ : Sequence α)) w := by
  refine Staging.runs_allocate _ hcount fun staging w₂ hstaging hstart hnone hsize => ?_
  have hspace : staging.stop + count ≤ staging.region.capacity := by
    rw [Staging.stop, hstart, hnone, hsize, List.length_nil, Nat.zero_add]
  refine Staging.runs_extend hfits 0 count hstaging hspace (fun k hk w => hmake k (by omega) w) ?_
  intro xs w₃ _ _
  exact (Staging.runs_adopt (s := { staging with elements := staging.elements ++ xs }) hstart).bind
    fun _ w₄ _ => runs_pure _ w₄

/-- Copies of an element fill as many slots. -/
theorem runs_replicate (count : Nat) (x : α) (handle : Handle) :
    (replicateChecked E count x handle).Runs (replicate E count x handle) w := by
  refine runs_ofExcept fun _ hcheck => ?_
  have hlimit : count ≤ Size.limit := capacity_le_limit ⟨count, none⟩ (Capacity.check_eq_ok_iff.mp hcheck)
  exact runs_made hfits handle hlimit fun _ _ w => runs_ofAct _ w

/-- A copy fills as many slots as there are elements. -/
theorem runs_copy (hs : s.len ≤ Size.limit) : (s.copyChecked E).Runs (s.copy E) w :=
  runs_made hfits s.handle hs fun _ hk w => runs_ofOption (List.getElem?_eq_getElem hk) (runs_ofAct _ w)

theorem runs_copyDemanded (hs : s.len ≤ Size.limit) :
    (s.copyDemandedChecked E).Runs (s.copyDemanded E) w := by
  have hcopy := runs_copy hfits hs (w := w)
  unfold Runs copyDemandedChecked copyDemanded
  rw [hcopy]
  cases s.copy E w <;> rfl

end Operations

end Growable.Sequence
