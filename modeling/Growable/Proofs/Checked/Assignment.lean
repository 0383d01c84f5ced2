import Growable.Proofs.Checked.Creation

/-!
# Assignment, checked

The old elements are overwritten by their indexes, then the free slots are filled, or a new region takes the
place of the old one.  An iterator supplants the old elements one by one, as long as the index that counts
them is below their number; from then on it is pushed.
-/

namespace Growable.Sequence

open Checked

variable {σ α β : Type} (E : Element σ α)

/-! ## From given elements -/

/-- Overwrites `count` elements, from the `k`-th on, by clones of what `source` comes to. -/
def overwriteFromChecked (source : Nat → Checked (World σ α) α) (k : Nat) :
    Nat → Checked (Sequence α × World σ α) Unit
  | 0 => return
  | count + 1 => do
    let x ← inWorld (source k)
    let s ← ofAct Act.held
    let _ ← ofOption s.items[k]?
    ofAct (inSlot k (E.overwrite x))
    let k ← sum k 1
    overwriteFromChecked source k count

/-- Stores `count` clones of what `source` comes to behind the elements. -/
def storeFromChecked (source : Nat → Checked (World σ α) α) :
    Nat → Checked (Sequence α × World σ α) Unit
  | 0 => return
  | count + 1 => do
    let s ← ofAct Act.held
    let x ← inWorld do
      let x ← source s.len
      ofAct (E.clone x)
    storeChecked x
    storeFromChecked source count

/-- Replaces the contents by `count` clones, the `k`-th of what `source` comes to for `k`. -/
def assignMadeChecked (count : Nat) (source : Nat → Checked (World σ α) α) :
    Checked (Sequence α × World σ α) Unit := do
  let s ← ofAct Act.held
  if count ≤ s.len then
    let _ ← run count (s.items.take count)
    overwriteFromChecked E source 0 count
    truncateChecked E count
  else
    ofAct (Act.ofExcept (Capacity.check count (s.maxSize E)))
    if count ≤ s.capacity then
      overwriteFromChecked E source 0 s.len
      let missing ← difference count s.len
      storeFromChecked E source missing
    else
      let (region, items) ← inWorld do
        let staging ← ofAct (Staging.allocate E s.handle.allocator count)
        let staging ← staging.extendChecked E (fun k => do
          let x ← source k
          ofAct (E.clone x)) 0 count
        staging.adoptChecked
      replaceChecked E region items

/-- Replaces the contents by `count` clones of an element. -/
def assignCopiesChecked (count : Nat) (x : α) : Checked (Sequence α × World σ α) Unit :=
  assignMadeChecked E count fun _ => pure x

/-- Replaces the contents by clones of some elements. -/
def assignAllChecked (xs : List α) : Checked (Sequence α × World σ α) Unit :=
  assignMadeChecked E xs.length fun k => ofOption xs[k]?

/-- A sequence of clones of some elements. -/
def ofListChecked (xs : List α) (handle : Handle) : Checked (World σ α) (Sequence α) := do
  let (s, _) ← buildChecked E handle (assignAllChecked E xs)
  return s

/-! ## From an iterator -/

/-- Puts an element in the place of the `k`-th one, which is then dropped. -/
def supplantChecked (k : Nat) (x : α) : Checked (Sequence α × World σ α) Unit := do
  let s ← ofAct Act.held
  let old ← ofOption s.items[k]?
  holdChecked s.len { s with items := s.items.set k x }
  inWorld (ofAct (E.drop false old))

/-- Lets what an iterator yields take the places from the `k`-th on, as far as the `len` old elements reach,
and pushes further ones. -/
def supplantFromChecked (len : Nat) (k : Nat) : Feed α → Checked (Sequence α × World σ α) Unit
  | .finish => do
    inWorld (ofAct (World.record .ended))
    if k < len then
      truncateChecked E k
  | .raise message => do
    inWorld (ofAct (World.record .feedFaulted))
    ofAct (Act.fault (.raised message))
  | .yield x rest => do
    inWorld (ofAct (World.record .yielded))
    if k < len then
      inWorld (ofAct (World.receive x))
      supplantChecked E k x
      let k ← sum k 1
      supplantFromChecked len k rest
    else
      pushChecked E x
      pushFeedChecked E rest

/-- Replaces the contents by what an iterator yields. -/
def assignFeedChecked (feed : Feed α) : Checked (Sequence α × World σ α) Unit := do
  let s ← ofAct Act.held
  supplantFromChecked E s.len 0 feed

/-! ## From another sequence -/

/-- Replaces the contents by clones of another sequence's, and the handle if that one propagates. -/
def copyFromChecked (other : Sequence α) : Checked (Sequence α × World σ α) Unit := do
  let s ← ofAct Act.held
  if other.handle.propagates && !s.handle.isEquivalent other.handle then
    let copied ← inWorld (other.copyChecked E)
    ofAct (Act.hold copied)
    inWorld (s.disposeChecked E false)
  else
    assignAllChecked E other.items
    if other.handle.propagates then
      let s ← ofAct Act.held
      ofAct (Act.hold { s with handle := other.handle })

/-- Moves the contents of the second sequence into the first, whose own are disposed of. -/
def moveFromChecked : Checked ((Sequence α × Sequence α) × World σ α) Unit := do
  let (s, other) ← ofAct Act.held
  if s.handle.isEquivalent other.handle then
    ofAct (Act.hold (s, { other with region := .empty, items := [] }))
    onFirst (replaceChecked E other.region other.items)
  else
    let staging ← inWorld do
      let staging ← ofAct (Staging.allocate E s.handle.allocator other.len)
      staging.moveAfterChecked other.items
    ofAct (Act.hold (s, { other with items := [] }))
    let (region, items) ← inWorld staging.adoptChecked
    onFirst (replaceChecked E region items)

/-! ## Nothing fails -/

variable {E} {s other : Sequence α} {w : World σ α} {m : Multiset (Asset α)}

section Source

variable {source : Nat → Checked (World σ α) α} {source' : Nat → Act (World σ α) α}

/-- As many elements as before are there, whatever was done in one slot. -/
theorem inSlot_changes (index : Nat) (act : Act (α × World σ α) β) (s : Sequence α) (w : World σ α) :
    (inSlot index act (s, w)).Meets
      (.always fun u => ∃ xs, xs.length = s.len ∧ u.1 = { s with items := xs }) := by
  refine inSlot_meets.mpr ⟨fun x _ => ?_, fun _ => ⟨s.items, rfl, rfl⟩⟩
  exact (Act.keeps_const True act (x, w) trivial).always_imp fun u _ => ⟨_, List.length_set, rfl⟩

/-- As many elements as before are there when what follows begins. -/
theorem runs_overwriteFrom {next : Unit → Checked (Sequence α × World σ α) β}
    {next' : Unit → SequenceAct σ α β} (k count : Nat) (hrange : k + count ≤ s.len)
    (hlimit : s.len ≤ Size.limit) (hsource : ∀ j < k + count, ∀ w, (source j).Runs (source' j) w)
    (h : ∀ xs w', xs.length = s.len → (next ()).Runs (next' ()) ({ s with items := xs }, w')) :
    (overwriteFromChecked E source k count >>= next).Runs (overwriteFrom E source' k count >>= next')
      (s, w) := by
  induction count generalizing k s w with
  | zero => exact h s.items w rfl
  | succ count ih =>
      have hk : k < s.items.length := by
        change k < s.len
        omega
      simp only [overwriteFromChecked, overwriteFrom, bind_assoc]
      refine runs_inWorld (hsource k (by omega) w) fun x w' _ => ?_
      refine runs_computed (runs_ofAct Act.held (s, w')) (runs_value (List.getElem?_eq_getElem hk) ?_)
      refine (runs_ofAct _ _).bind_of (inSlot_changes k _ s w') fun _ u hu => ?_
      obtain ⟨t, w''⟩ := u
      obtain ⟨xs, hxs, rfl⟩ := hu
      refine runs_sum (by omega) (ih (k + 1) ?_ ?_ (fun j hj => hsource j (by omega)) ?_)
      · change k + 1 + count ≤ xs.length
        omega
      · exact hxs.trans_le hlimit
      · exact fun ys w'' hys => h ys w'' (hys.trans hxs)

/-- There is a free slot for each of the elements that are stored. -/
theorem runs_storeFrom (count : Nat) (hroom : s.len + count ≤ s.capacity) (hcapacity : s.capacity ≤ Size.limit)
    (hsource : ∀ j < s.len + count, ∀ w, (source j).Runs (source' j) w) :
    (storeFromChecked E source count).Runs (storeFrom E source' count) (s, w) := by
  induction count generalizing s w with
  | zero => exact runs_pure _ _
  | succ count ih =>
      have hlt : s.len < s.capacity := by omega
      refine runs_held (runs_inWorld ?_ fun x w' _ => (runs_store x hlt hcapacity).bind fun _ t hstore => ?_)
      · exact (hsource s.len (by omega) w).bind fun x w' _ => runs_ofAct _ w'
      · rw [store, Act.held_bind, Act.require_eq_pure hlt] at hstore
        cases hstore
        have hlen : { s with items := s.items ++ [x] }.len = s.len + 1 := List.length_append
        refine ih ?_ hcapacity fun j hj => hsource j (by omega)
        rw [hlen]
        change s.len + 1 + count ≤ s.capacity
        omega

end Source

section Operations

variable (hfits : E.toShape.Fits)

include hfits

section Assign

variable (hs : s.Countable E)

include hs

/-- The slots that are overwritten, and those that are filled, are within the capacity. -/
theorem runs_assignMade (count : Nat) {source : Nat → Checked (World σ α) α}
    {source' : Nat → Act (World σ α) α} (hsource : ∀ k < count, ∀ w, (source k).Runs (source' k) w) :
    (assignMadeChecked E count source).Runs (assignMade E count source') (s, w) := by
  refine runs_held (runs_ite (fun hshort : count ≤ s.len => ?_) fun hlong : ¬ count ≤ s.len =>
    runs_ofExcept fun _ hcheck => runs_ite (fun hroom : count ≤ s.capacity => ?_) fun _ => ?_)
  · refine runs_run (List.length_take_of_le hshort) ?_
    refine runs_overwriteFrom 0 count (by omega) hs.len_le (fun j hj => hsource j (by omega)) ?_
    intro xs w' hxs
    exact runs_truncate (hs.with_items (hxs.trans_le hs.valid.len_le)) count
  · refine runs_overwriteFrom 0 s.len (by omega) hs.len_le (fun j hj => hsource j (by omega)) ?_
    intro xs w' hxs
    have hall : { s with items := xs }.len + (count - s.len) = count := by
      change xs.length + (count - s.len) = count
      omega
    refine runs_difference (Nat.le_of_not_le hlong) (runs_storeFrom _ (hall.trans_le hroom) hs.capacity_le ?_)
    exact fun j hj => hsource j (hj.trans_eq hall)
  · have hlimit : count ≤ Size.limit :=
      capacity_le_limit ⟨count, none⟩ (Capacity.check_eq_ok_iff.mp hcheck)
    refine runs_inWorld ?_ fun r w' _ => runs_replace hfits hs r.1 r.2
    refine Staging.runs_allocate _ hlimit fun staging w₂ hstaging hstart hnone hsize => ?_
    have hspace : staging.stop + count ≤ staging.region.capacity := by
      rw [Staging.stop, hstart, hnone, hsize, List.length_nil, Nat.zero_add]
    refine Staging.runs_extend hfits 0 count hstaging hspace (fun k hk w => ?_) ?_
    · exact (hsource k (by omega) w).bind fun x w' _ => runs_ofAct _ w'
    · exact fun xs w₃ _ _ =>
        Staging.runs_adopt (s := { staging with elements := staging.elements ++ xs }) hstart

theorem runs_assignCopies (count : Nat) (x : α) :
    (assignCopiesChecked E count x).Runs (assignCopies E count x) (s, w) :=
  runs_assignMade hfits hs count fun _ _ w => runs_pure x w

theorem runs_assignAll (xs : List α) : (assignAllChecked E xs).Runs (assignAll E xs) (s, w) :=
  runs_assignMade hfits hs xs.length fun _ hk w => runs_some (List.getElem?_eq_getElem hk) w

end Assign

/-- A new sequence has exactly the slots that it fills. -/
theorem runs_ofList (xs : List α) (handle : Handle) (h : w.Owns m) :
    (ofListChecked E xs handle).Runs (ofList E xs handle) w := by
  have hempty := counted_empty (E := E) handle h
  have hkept := hempty.meets (assignAll_meets xs hempty.sound)
    (keeps_assignAll (fun _ _ => trivial) xs Handle.mul_le_maxBytes fun r _ hr => capacity_le_limit r hr)
  refine runs_answered _ (runs_build hfits ?_ (Counted.countable_state hkept))
  exact runs_assignAll hfits hempty.countable xs

/-! ## From an iterator -/

omit hfits in
/-- An element is supplanted in a slot that holds one. -/
theorem runs_supplant {k : Nat} (hk : k < s.len) (x : α) :
    (supplantChecked E k x).Runs (supplant E k x) (s, w) := by
  refine runs_held (runs_ofOption (List.getElem?_eq_getElem hk) ?_)
  exact runs_holdChecked List.length_set (runs_ofAct _ _).inWorld

omit hfits in
/-- An element that was received takes the place of another, and the sequence is as long as before. -/
theorem Counted.supplant_meets (h : Counted E m (s, w)) {k : Nat} (hk : k < s.len) {x : α}
    {w' : World σ α} (howns : w'.Owns ({.element x} + (s.assets E + m))) :
    (supplant E k x (s, w')).Meets ⟨fun _ u => Counted E m u ∧ u.1.len = s.len, fun _ _ => True,
      fun _ _ => True⟩ := by
  have hlen : (s.items.take k).length = k := List.length_take_of_le hk.le
  have hitems : s.items = s.items.take k ++ s.items[k] :: s.items.drop (k + 1) := by
    rw [← List.drop_eq_getElem_cons hk, List.take_append_drop]
  have hmeets := Sequence.supplant_meets h.sound.valid hitems howns
  rw [hlen] at hmeets
  refine hmeets.imp ?_ (fun _ _ _ => trivial) (fun _ _ _ => trivial)
  intro _ u hu
  obtain ⟨hsound, hsame⟩ := hu
  refine ⟨⟨hsound, hsame ▸ h.capacity_le⟩, ?_⟩
  have hreplaced : (s.items.take k ++ x :: s.items.drop (k + 1)).length
      = (s.items.take k ++ s.items[k] :: s.items.drop (k + 1)).length := by
    simp only [List.length_append, List.length_cons]
  rw [hsame]
  exact hreplaced.trans (congrArg List.length hitems).symm

omit hfits in
/-- Once all old elements were supplanted, what else is yielded is pushed. -/
theorem supplantFrom_eq_pushFeed {len k : Nat} (h : len ≤ k) (feed : Feed α) :
    supplantFrom E len k feed = pushFeed E feed := by
  induction feed generalizing k with
  | finish =>
      rw [supplantFrom, pushFeed]
      simp only [if_neg (Nat.not_lt.mpr h)]
      exact bind_pure _
  | raise message => rfl
  | yield x rest ih =>
      rw [supplantFrom, pushFeed]
      simp only [if_neg (Nat.not_lt.mpr h), ih (Nat.le_succ_of_le h)]

/-- The next slot is counted up to the length, and then the elements are pushed. -/
theorem runs_supplantFrom (h : Counted E m (s, w)) {k : Nat} (feed : Feed α) :
    (supplantFromChecked E s.len k feed).Runs (supplantFrom E s.len k feed) (s, w) := by
  induction feed generalizing k s w with
  | finish =>
      refine runs_record (runs_ite (fun _ => ?_) fun _ => runs_pure _ _)
      exact runs_truncate h.countable k
  | raise message => exact runs_record (runs_ofAct _ _)
  | yield x rest ih =>
      have hasked := h.record (e := .yielded) rfl rfl
      refine runs_record ?_
      by_cases hk : k < s.len
      · rw [if_pos hk, if_pos hk]
        have hreceived := hasked.supplant_meets hk (World.receive_meets x hasked.sound.owns)
        refine runs_record ((runs_supplant hk x).bind_of hreceived fun _ u hu => runs_sum ?_ ?_)
        · exact Nat.le_trans hk h.countable.len_le
        · obtain ⟨hcounted, hlen⟩ := hu
          rw [← hlen]
          exact ih hcounted
      · rw [if_neg hk, if_neg hk, supplantFrom_eq_pushFeed (by omega)]
        refine (runs_push hfits hasked.countable x).bind_of (hasked.push_meets x) fun _ u hu => ?_
        exact runs_pushFeed hfits hu.1 rest

/-- The length is counted before the iterator is asked for the first time. -/
theorem runs_assignFeed (h : Counted E m (s, w)) (feed : Feed α) :
    (assignFeedChecked E feed).Runs (assignFeed E feed) (s, w) :=
  runs_held (runs_supplantFrom hfits h feed)

/-! ## From another sequence -/

/-- Whichever way a copy is made, its slots are within the capacity. -/
theorem runs_copyFrom (hs : s.Countable E) (hother : other.len ≤ Size.limit) :
    (copyFromChecked E other).Runs (copyFrom E other) (s, w) := by
  refine runs_held (runs_ite (fun _ => ?_) fun _ => ?_)
  · refine runs_inWorld (runs_copy hfits hother) fun copied w' _ => runs_hold ?_
    exact (runs_dispose hfits hs.valid false).inWorld
  · refine (runs_assignAll hfits hs other.items).bind fun _ u _ => ?_
    exact runs_ite (fun _ => runs_held (runs_ofAct _ _)) fun _ => runs_pure _ _

omit hfits in
/-- What is moved into a new region begins at its first slot. -/
theorem yields_moved (allocator : Allocator) (capacity : Nat) (items : List α) (p : Prop) :
    Act.Yields (fun _ => p) (fun staging => staging.start = 0) (do
      let staging ← Staging.allocate E allocator capacity
      staging.moveAfter items : Act (World σ α) (Staging α)) := by
  refine Act.Yields.bind (P := fun staging => staging.start = 0) ?_ fun staging hstart => ?_
  · exact (Act.keeps_const p _).bind_yields fun _ => Act.yields_pure rfl
  · exact (Act.keeps_const p _).bind_yields fun _ => Act.yields_pure hstart

/-- The elements that move have their slots in the new region. -/
theorem runs_moveFrom (hs : s.Countable E) (hother : other.len ≤ Size.limit) :
    (moveFromChecked E).Runs (moveFrom E) ((s, other), w) := by
  have hreplace : ∀ (region : Region) (items : List α) (rest : Sequence α) (w' : World σ α),
      (onFirst (replaceChecked E region items)).Runs (Act.onFirst (replace E region items)) ((s, rest), w') :=
    fun region items rest w' => (runs_replace hfits hs region items).onFirst
  refine runs_held (runs_ite (fun _ => runs_hold (hreplace _ _ _ _)) fun _ => ?_)
  refine Runs.bind_of (Runs.inWorld ?_) (Act.Yields.inWorld
    (J := fun u : (Sequence α × Sequence α) × World σ α => u.1 = (s, other))
    (fun t => yields_moved _ _ _ (t = (s, other))) ((s, other), w) rfl) fun staging u hu => ?_
  · refine Staging.runs_allocate _ hother fun staging w₂ hstaging hstart hnone hsize => ?_
    have hspace : staging.stop + other.items.length ≤ staging.region.capacity := by
      rw [Staging.stop, hstart, hnone, hsize, List.length_nil, Nat.zero_add]
      exact Nat.le_refl _
    rw [← bind_pure (staging.moveAfterChecked other.items), ← bind_pure (staging.moveAfter other.items)]
    exact Staging.runs_moveAfter hstaging hspace (runs_pure _ _)
  · obtain ⟨hstart, hsame⟩ := hu
    obtain ⟨t, w'⟩ := u
    cases hsame
    refine runs_hold (runs_inWorld (Staging.runs_adopt hstart) fun r w₂ _ => ?_)
    exact hreplace r.1 r.2 _ w₂

end Operations

end Growable.Sequence
