import Growable.Proofs.Checked
import Growable.Proofs.Custody.Staging
import Growable.Proofs.Invariant

/-!
# Staging, checked

The staging of new contents with all that it computes and asserts: the slots at which the construction
begins and ends, the slots that are left, the number of elements that are dropped when it is given up.  As
long as it stays within a region the capacity of which is a size, none of this fails
(`Staging.runs_append`, `Staging.runs_moveBefore`, ...).
-/

namespace Growable

open Checked

variable {σ α β : Type} {w : World σ α}

/-- An event is recorded, and that is all that has changed for what follows. -/
theorem Checked.runs_record {S δ : Type} {s : S} {e : Event α} {next : Unit → Checked (S × World σ α) δ}
    {next' : Unit → Act (S × World σ α) δ}
    (h : (next ()).Runs (next' ()) (s, { w with trace := w.trace.push e })) :
    (inWorld (ofAct (World.record e)) >>= next).Runs (Act.inWorld (World.record e) >>= next') (s, w) := h

namespace Region

/-- Gives the block of a region back, the layout of which has to be valid. -/
def releaseChecked (shape : Shape) (allocator : Allocator) (region : Region) :
    Checked (World σ α) Unit := do
  let bytes ← ofOption (bytes? shape region.capacity)
  if bytes = 0 then
    return
  let block ← ofOption region.block
  ofAct (World.giveBack allocator block bytes)

/-- A valid region gives back a block of the size that it was requested with. -/
theorem runs_release {shape : Shape} {r : Region} (hr : r.Valid shape) (hfits : shape.Fits)
    (allocator : Allocator) : (releaseChecked shape allocator r).Runs (release shape allocator r) w := by
  have hlayout : shape.bytes * r.capacity + shape.align ≤ Size.blockLimit + 1 := by
    by_cases hnone : r.block = none
    · rw [hr.block_eq_none_iff.mp hnone, Nat.zero_add]
      exact hfits
    · exact hr.layout hnone
  apply runs_ofOption (bytes?_eq_some_iff.mpr ⟨rfl, hlayout⟩)
  apply runs_ite
  · exact fun _ => runs_pure _ _
  · intro hsome
    obtain ⟨block, hblock⟩ := Option.ne_none_iff_exists'.mp (mt hr.block_eq_none_iff.mp hsome)
    exact runs_ofOption hblock (runs_ofAct _ _)

end Region

namespace Staging

variable (E : Element σ α)

/-- Drops what was constructed, and releases the region. -/
def discardChecked (unwinding : Bool) (s : Staging α) : Checked (World σ α) Unit :=
  ensuring
    (do
      slot s.region.capacity s.start
      let constructed ← run (← difference s.stop s.start) s.elements
      ofAct (E.dropAll unwinding constructed))
    fun _ => s.region.releaseChecked E.toShape s.allocator

/-- Places the construction, which has not begun, at a slot. -/
def seekChecked (slot : Nat) (s : Staging α) : Checked (World σ α) (Staging α) := do
  require (s.elements = [])
  require (slot ≤ s.region.capacity)
  return { s with start := slot }

/-- Goes on with a staging area, the end of which was computed. -/
def reach (stop : Nat) (s : Staging α) : Checked (World σ α) (Staging α) :=
  ofOption (if s.stop = stop then some s else none)

/-- Constructs one more element at the end. -/
def appendChecked (make : Checked (World σ α) α) (s : Staging α) : Checked (World σ α) (Staging α) :=
  onFault
    (do
      require (s.stop < s.region.capacity)
      let x ← make
      slot s.region.capacity s.stop
      let stop ← sum s.stop 1
      reach stop { s with elements := s.elements ++ [x] })
    (s.discardChecked E true)

/-- Constructs `count` more elements, numbered from `k`, at the end. -/
def extendChecked (make : Nat → Checked (World σ α) α) (k : Nat) :
    Nat → Staging α → Checked (World σ α) (Staging α)
  | 0, s => return s
  | count + 1, s => do
    let s ← s.appendChecked E (make k)
    extendChecked make (k + 1) count s

/-- Moves existing elements in front of the constructed ones. -/
def moveBeforeChecked (existing : List α) (s : Staging α) : Checked (World σ α) (Staging α) := do
  require (existing.length ≤ s.start)
  let start ← difference s.start existing.length
  slot s.region.capacity start
  reach s.stop { s with start, elements := existing ++ s.elements }

/-- Moves existing elements behind the constructed ones. -/
def moveAfterChecked (existing : List α) (s : Staging α) : Checked (World σ α) (Staging α) := do
  let room ← difference s.region.capacity s.stop
  require (existing.length ≤ room)
  slot s.region.capacity s.stop
  let stop ← sum s.stop existing.length
  reach stop { s with elements := s.elements ++ existing }

/-- Hands over the region and its contents, which begin at the first slot and are as many as there are slots
before the end. -/
def adoptChecked (s : Staging α) : Checked (World σ α) (Region × List α) := do
  require (s.start = 0)
  let items ← run s.stop s.elements
  return (s.region, items)

/-- A valid staging area with as many slots as a size can express. -/
structure Countable (s : Staging α) : Prop where
  valid : s.Valid E
  capacity_le : s.region.capacity ≤ Size.limit

variable {E} {s : Staging α} (hfits : E.toShape.Fits)

/-- Staged elements can be counted as long as they have their slots. -/
theorem Countable.append {xs : List α} (hs : s.Countable E)
    (hroom : s.stop + xs.length ≤ s.region.capacity) :
    { s with elements := s.elements ++ xs }.Countable E := by
  refine ⟨⟨hs.valid.region, ?_⟩, hs.capacity_le⟩
  rwa [stop, List.length_append, ← Nat.add_assoc]

/-- A staging area ends where it is said to end. -/
theorem runs_reach {t : Staging α} {stop : Nat} (h : t.stop = stop) : (reach stop t).Runs (pure t) w := by
  rw [reach, if_pos h]
  exact runs_pure t w

include hfits in
/-- The staged elements are dropped, and their region has the size that it gives back. -/
theorem runs_discard (hs : s.Valid E) (unwinding : Bool) :
    (s.discardChecked E unwinding).Runs (s.discard E unwinding) w := by
  have hstart : s.start ≤ s.stop := Nat.le_add_right _ _
  refine Runs.ensuring ?_ fun _ _ _ => Region.runs_release hs.region hfits _
  apply runs_slot (hstart.trans hs.stop_le)
  apply runs_difference hstart
  exact runs_run (Nat.add_sub_cancel_left _ _).symm (runs_ofAct _ _)

/-- More elements end by as much later. -/
theorem stop_append (s : Staging α) (xs : List α) :
    { s with elements := s.elements ++ xs }.stop = s.stop + xs.length := by
  rw [stop, stop, List.length_append, Nat.add_assoc]

/-! What is appended comes behind what is there, whatever is known of the world. -/

/-- One element comes behind the staged ones. -/
theorem yields_append_one (s : Staging α) (make : Act (World σ α) α) (p : Prop) :
    Act.Yields (fun _ => p) (fun t => ∃ x, t = { s with elements := s.elements ++ [x] })
      (s.append E make) := by
  refine Act.Yields.onFault ((Act.keeps_const p _).bind_yields fun _ => ?_) (Act.keeps_const p _)
  exact (Act.keeps_const p _).bind_yields fun x => Act.yields_pure ⟨x, rfl⟩

/-- As many elements come behind the staged ones as are made. -/
theorem yields_extend_all (s : Staging α) (make : Nat → Act (World σ α) α) (k count : Nat) (p : Prop) :
    Act.Yields (fun _ => p) (fun t => ∃ xs, xs.length = count ∧ t = { s with elements := s.elements ++ xs })
      (s.extend E make k count) := by
  induction count generalizing k s with
  | zero => exact Act.yields_pure ⟨[], rfl, by rw [List.append_nil]⟩
  | succ count ih =>
      refine (yields_append_one s (make k) p).bind fun t ht => ?_
      obtain ⟨x, rfl⟩ := ht
      refine (ih { s with elements := s.elements ++ [x] } (k + 1)).imp fun t' ht' => ?_
      obtain ⟨xs, rfl, rfl⟩ := ht'
      exact ⟨x :: xs, rfl, by simp only [List.append_assoc, List.singleton_append]⟩

section Steps

variable {next : Staging α → Checked (World σ α) β} {next' : Staging α → Act (World σ α) β}

/-- What is allocated is placed at the first slot. -/
theorem runs_allocate (allocator : Allocator) {capacity : Nat} (hcapacity : capacity ≤ Size.limit)
    (h : ∀ s w', s.Countable E → s.start = 0 → s.elements = [] → s.region.capacity = capacity →
      (next s).Runs (next' s) w') :
    (ofAct (allocate E allocator capacity) >>= next).Runs (allocate E allocator capacity >>= next') w := by
  refine (runs_ofAct _ _).bind_of (allocate_meets allocator capacity w) fun s w' hs => ?_
  obtain ⟨hvalid, hstart, hnone, hsize, -⟩ := hs
  exact h s w' ⟨hvalid, hsize.trans_le hcapacity⟩ hstart hnone hsize

/-- An empty staging area may begin at any slot of its region. -/
theorem runs_seek {slot : Nat} (hnone : s.elements = []) (hle : slot ≤ s.region.capacity)
    (h : (next { s with start := slot }).Runs (next' { s with start := slot }) w) :
    (s.seekChecked slot >>= next).Runs (s.seek slot >>= next') w := by
  have hseek : s.seek slot w = .done { s with start := slot } w := by
    rw [seek, Act.require_eq_pure hnone, pure_bind, Act.require_eq_pure hle]
    rfl
  exact runs_done (runs_require hnone (runs_require hle (runs_pure _ w))) hseek h

/-- It can still be counted then. -/
theorem Countable.seek {slot : Nat} (hs : s.Countable E) (hnone : s.elements = [])
    (hle : slot ≤ s.region.capacity) : { s with start := slot }.Countable E := by
  refine ⟨⟨hs.valid.region, ?_⟩, hs.capacity_le⟩
  rwa [stop, hnone, List.length_nil, Nat.add_zero]

include hfits in
/-- What is made for the next slot may rely on nothing; what follows may rely on there being one more. -/
theorem runs_append {make : Checked (World σ α) α} {make' : Act (World σ α) α} (hs : s.Countable E)
    (hroom : s.stop < s.region.capacity) (hmake : make.Runs make' w)
    (h : ∀ x w', { s with elements := s.elements ++ [x] }.Countable E →
      (next { s with elements := s.elements ++ [x] }).Runs (next' { s with elements := s.elements ++ [x] }) w') :
    (s.appendChecked E make >>= next).Runs (s.append E make' >>= next') w := by
  have hsum : s.stop + 1 ≤ Size.limit := Nat.le_trans hroom hs.capacity_le
  have happend : (s.appendChecked E make).Runs (s.append E make') w := by
    refine Runs.onFault ?_ fun _ _ _ => runs_discard hfits hs.valid true
    refine runs_both hroom (hmake.bind fun x w' _ => ?_)
    exact runs_slot hroom.le (runs_sum hsum (runs_reach (stop_append s [x])))
  refine happend.bind_of (yields_append_one s make' True w trivial) fun s' w' hs' => ?_
  obtain ⟨⟨x, rfl⟩, -⟩ := hs'
  exact h x w' (hs.append hroom)

include hfits in
/-- Elements that are made have their slots behind the staged ones. -/
theorem runs_extend {make : Nat → Checked (World σ α) α} {make' : Nat → Act (World σ α) α} (k count : Nat)
    (hs : s.Countable E) (hroom : s.stop + count ≤ s.region.capacity)
    (hmake : ∀ j < k + count, ∀ w, (make j).Runs (make' j) w)
    (h : ∀ xs w', xs.length = count → { s with elements := s.elements ++ xs }.Countable E →
      (next { s with elements := s.elements ++ xs }).Runs (next' { s with elements := s.elements ++ xs }) w') :
    (s.extendChecked E make k count >>= next).Runs (s.extend E make' k count >>= next') w := by
  induction count generalizing k s w next next' with
  | zero =>
      have hnone := h [] w rfl
      rw [List.append_nil] at hnone
      exact hnone hs
  | succ count ih =>
      rw [extendChecked, extend, bind_assoc, bind_assoc]
      refine runs_append hfits hs (by omega) (hmake k (by omega) w) fun x w' hs' => ?_
      have hroom' : { s with elements := s.elements ++ [x] }.stop + count ≤ s.region.capacity := by
        rw [stop_append, List.length_singleton]
        omega
      refine ih (k + 1) hs' hroom' (fun j hj => hmake j (by omega)) fun xs w'' hlen hs'' => ?_
      have hnext := h (x :: xs) w'' (by rw [List.length_cons, hlen])
      rw [List.append_cons] at hnext
      exact hnext hs''

/-- The elements that move before the staged ones have their slots there. -/
theorem runs_moveBefore {existing : List α} (hs : s.Countable E) (hroom : existing.length ≤ s.start)
    (h : (next { s with start := s.start - existing.length, elements := existing ++ s.elements }).Runs
      (next' { s with start := s.start - existing.length, elements := existing ++ s.elements }) w) :
    (s.moveBeforeChecked existing >>= next).Runs (s.moveBefore existing >>= next') w := by
  have hmove : s.moveBefore existing w
      = .done { s with start := s.start - existing.length, elements := existing ++ s.elements } w := by
    rw [moveBefore, Act.require_eq_pure hroom]
    rfl
  have hstart : s.start ≤ s.stop := Nat.le_add_right _ _
  have hslot : s.start - existing.length ≤ s.region.capacity :=
    (Nat.sub_le _ _).trans (hstart.trans hs.valid.stop_le)
  have hsame : { s with start := s.start - existing.length, elements := existing ++ s.elements }.stop
      = s.stop := by
    change s.start - existing.length + (existing ++ s.elements).length = s.start + s.elements.length
    rw [List.length_append]
    omega
  exact runs_done (runs_require hroom (runs_difference hroom (runs_slot hslot (runs_reach hsame)))) hmove h

/-- The elements that move behind the staged ones have their slots there. -/
theorem runs_moveAfter {existing : List α} (hs : s.Countable E)
    (hroom : s.stop + existing.length ≤ s.region.capacity)
    (h : (next { s with elements := s.elements ++ existing }).Runs
      (next' { s with elements := s.elements ++ existing }) w) :
    (s.moveAfterChecked existing >>= next).Runs (s.moveAfter existing >>= next') w := by
  have hrest : existing.length ≤ s.region.capacity - s.stop := Nat.le_sub_of_add_le' hroom
  have hmove : s.moveAfter existing w = .done { s with elements := s.elements ++ existing } w := by
    rw [moveAfter, Act.require_eq_pure hrest]
    rfl
  have hsum : s.stop + existing.length ≤ Size.limit := hroom.trans hs.capacity_le
  refine runs_done ?_ hmove h
  refine runs_difference hs.valid.stop_le (runs_require hrest (runs_slot hs.valid.stop_le ?_))
  exact runs_sum hsum (runs_reach (stop_append s existing))

end Steps

/-- A staging area that begins at the first slot becomes the contents. -/
theorem runs_adopt (hstart : s.start = 0) :
    (s.adoptChecked : Checked (World σ α) _).Runs s.adopt w := by
  have hcount : s.elements.length = s.stop := by rw [stop, hstart, Nat.zero_add]
  exact runs_both hstart (runs_run hcount (runs_pure _ w))

end Staging

end Growable
