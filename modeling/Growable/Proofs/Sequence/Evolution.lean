import Growable.Proofs.Evolution
import Growable.Proofs.Items
import Growable.Proofs.Sequence.Opening
import Growable.Sequence.Assignment
import Growable.Sequence.Drain
import Growable.Sequence.Reading

/-!
# How the world evolves around a sequence

While a sequence is worked on, its handle stays, and the events that come into the trace are of known
kinds: `Sequence.Under h P Q w₀` says that the sequence has the handle `h` and a region that satisfies `P`,
in a world that evolved from `w₀` by events that satisfy `Q`.

* What works in place keeps the region, and leaves nothing but `Event.Chore`, or what element code leaves:
  no allocator is involved.
* What grows a sequence deals with the allocator of its handle, and asks it for no more than the handle
  admits: it keeps `Under h P Q w₀` for every `P` that holds of the regions which the handle admits, and
  every `Q` that holds of `Event.Upkeep h.allocator.place most`, where `h.maxBytes ≤ most`; events of
  elements that `make` comes to are those of `make` itself (`keeps_pushBy`, `keeps_insertMade`, ...).
* Shrinking, copying and moving ask for as much as is there already, whatever the handle admits
  (`shrink_evolves`, `yields_copy`, `moveFrom_evolves`).
-/

namespace Growable

open Act

variable {σ α β : Type}

namespace Sequence

variable {E : Element σ α} {h : Handle} {P : Region → Prop} {Q : Event α → Prop} {w₀ : World σ α}
  {most : Nat}

/-- The sequence has the handle `h` and a region that satisfies `P`, and its world evolved from `w₀` by
events that satisfy `Q`. -/
def Under (h : Handle) (P : Region → Prop) (Q : Event α → Prop) (w₀ : World σ α)
    (u : Sequence α × World σ α) : Prop :=
  (u.1.handle = h ∧ P u.1.region) ∧ w₀.Evolves Q u.2

/-- Whatever sequence is in place is under the handle and has a region of the kind. -/
theorem keeps_held {next : Sequence α → SequenceAct σ α β}
    (hnext : ∀ s, s.handle = h ∧ P s.region → Keeps (Under h P Q w₀) (next s)) :
    Keeps (Under h P Q w₀) (held >>= next) :=
  keeps_held_bind fun s _ hs => hnext s hs.1

/-- Such a sequence may be put in place. -/
theorem keeps_hold {s : Sequence α} (hs : s.handle = h ∧ P s.region) :
    Keeps (Under h P Q w₀) (hold s) :=
  Act.keeps_hold fun _ _ hu => ⟨hs, hu.2⟩

/-- An act on the world does not touch the sequence. -/
theorem keeps_inWorld {act : Act (World σ α) β} (hact : Keeps (w₀.Evolves Q) act) :
    Keeps (Under h P Q w₀) (inWorld act) :=
  hact.beside (L := fun s : Sequence α => s.handle = h ∧ P s.region)

/-- Its result has the property it had by itself. -/
theorem yields_inWorld {V : β → Prop} {act : Act (World σ α) β} (hact : Yields (w₀.Evolves Q) V act) :
    Yields (Under h P Q w₀) V (inWorld act) :=
  hact.beside (L := fun s : Sequence α => s.handle = h ∧ P s.region)

/-! ## In place

No allocator is involved, and the region stays. -/

/-- Filling a slot keeps the region. -/
theorem keeps_store (x : α) : Keeps (Under h P Q w₀) (store x : SequenceAct σ α Unit) := by
  apply keeps_held
  intro s hs
  apply (keeps_require _ _).bind
  exact fun _ => keeps_hold hs

/-- Reading a slot keeps everything. -/
theorem keeps_demand (index : Nat) : Keeps (Under h P Q w₀) (demand index : SequenceAct σ α α) := by
  apply keeps_held
  intro s _
  split
  · exact keeps_pure _
  · exact keeps_fault _

/-- Rotating the elements keeps the region. -/
theorem keeps_rotate (position middle : Nat) :
    Keeps (Under h P Q w₀) (rotate position middle : SequenceAct σ α Unit) := by
  apply keeps_held
  intro s hs
  apply (keeps_require _ _).bind
  exact fun _ => keeps_hold hs

/-- An act on one slot keeps the region. -/
theorem keeps_inSlot (index : Nat) {act : Act (α × World σ α) β}
    (hact : Keeps (fun u : α × World σ α => w₀.Evolves Q u.2) act) :
    Keeps (Under h P Q w₀) (inSlot index act) := by
  rintro ⟨s, w⟩ hu
  refine inSlot_meets.mpr ⟨fun x _ => ?_, fun _ => hu⟩
  exact (hact (x, w) hu.2).always_imp fun _ hw => ⟨hu.1, hw⟩

/-- Settling the contents keeps the region. -/
theorem keeps_settle (items : List α) : Keeps (Under h P Q w₀) (settle items : SequenceAct σ α Unit) := by
  apply keeps_held
  exact fun s hs => keeps_hold hs

/-- Filling an opening keeps the region, wherever it stops. -/
theorem keeps_fillBetween {make : Nat → Act (World σ α) α} {front back : List α}
    (hmake : ∀ k, Keeps (w₀.Evolves Q) (make k)) (count : Nat) (filled : List α) :
    Keeps (Under h P Q w₀) (fillBetween make front back count filled) := by
  induction count generalizing filled with
  | zero => exact keeps_settle _
  | succ count ih =>
      apply ((keeps_inWorld (hmake filled.length)).onFault (keeps_settle _)).bind
      exact fun x => ih (filled ++ [x])

section Chores

variable (hQ : ∀ e : Event α, e.Chore → Q e)

include hQ

/-- Removing the last element keeps the region. -/
theorem keeps_pop : Keeps (Under h P Q w₀) (pop : SequenceAct σ α (Option α)) := by
  apply keeps_held
  intro s hs
  split
  · exact keeps_pure _
  · apply (keeps_hold (s := { s with items := s.items.dropLast }) hs).bind
    intro _
    apply (keeps_inWorld (World.keeps_hand hQ _)).bind
    exact fun _ => keeps_pure _

/-- Removing an element closes the gap in the same region. -/
theorem keeps_erase (index : Nat) : Keeps (Under h P Q w₀) (erase index : SequenceAct σ α α) := by
  rw [erase_eq]
  apply keeps_held
  intro s hs
  apply keeps_ofExcept_bind
  intro x _
  apply (keeps_hold (s := { s with items := s.items.eraseIdx index }) hs).bind
  intro _
  apply (keeps_inWorld (World.keeps_hand hQ x)).bind
  exact fun _ => keeps_pure _

/-- Lowering the length keeps the region, and drops are chores. -/
theorem keeps_truncate (n : Nat) : Keeps (Under h P Q w₀) (truncate E n) := by
  apply keeps_held
  intro s hs
  apply Keeps.ite (fun _ => keeps_pure _)
  intro _
  apply (keeps_hold (s := { s with items := s.items.take n }) hs).bind
  exact fun _ => keeps_inWorld (E.keeps_dropAll hQ _ _)

/-- Removing a span closes the gap in the same region, even if a drop faults. -/
theorem keeps_eraseSpan (span : Span) : Keeps (Under h P Q w₀) (eraseSpan E span) := by
  rw [eraseSpan_eq]
  apply keeps_held
  intro s hs
  apply keeps_ofExcept_bind
  intro bounds _
  apply Keeps.ite (fun _ => keeps_pure _)
  intro _
  apply (keeps_hold (s := { s with items := s.items.take bounds.1 }) hs).bind
  intro _
  apply (keeps_inWorld (E.keeps_dropAll hQ _ _)).ensuring
  exact fun _ => keeps_hold hs

/-- Assigning over an element keeps the region, and drops the old one. -/
theorem keeps_supplant (k : Nat) (x : α) : Keeps (Under h P Q w₀) (supplant E k x) := by
  apply keeps_held
  intro s hs
  apply (keeps_ofOption _ _).bind
  intro old
  apply (keeps_hold (s := { s with items := s.items.set k x }) hs).bind
  exact fun _ => keeps_inWorld (E.keeps_drop hQ _ _)

/-- Replacing an element keeps the region. -/
theorem keeps_exchange (index : Nat) (x : α) :
    Keeps (Under h P Q w₀) (exchange index x : SequenceAct σ α α) := by
  apply keeps_held
  intro s hs
  apply keeps_ofExcept_bind
  intro old _
  apply (keeps_hold (s := { s with items := s.items.set index x }) hs).bind
  intro _
  apply (keeps_inWorld ((World.keeps_receive hQ x).bind fun _ => World.keeps_hand hQ old)).bind
  exact fun _ => keeps_pure _

/-- Handing an element out and another in keeps the region. -/
theorem keeps_carry (x : α) : Keeps (Under h P Q w₀) (carry x : SequenceAct σ α α) := by
  apply keeps_held
  intro s hs
  apply (keeps_hold (s := { s with items := (x :: s.items).take s.len }) hs).bind
  intro _
  apply (keeps_inWorld ((World.keeps_receive hQ x).bind fun _ => World.keeps_hand hQ _)).bind
  exact fun _ => keeps_pure _

theorem keeps_exchangeDemanded (index : Nat) (x : α) :
    Keeps (Under h P Q w₀) (exchangeDemanded index x : SequenceAct σ α α) :=
  (keeps_demand index).bind fun _ => keeps_exchange hQ index x

/-- Constructing behind the elements has the events of the constructions, and of the clean-up after
a fault. -/
theorem keeps_makeTail {make : Nat → Act (World σ α) α} (hmake : ∀ k, Keeps (w₀.Evolves Q) (make k))
    (capacity len k count : Nat) (made : List α) :
    Keeps (w₀.Evolves Q) (makeTail E make capacity len k count made) := by
  induction count generalizing k made with
  | zero => exact keeps_pure _
  | succ count ih =>
      apply Keeps.bind (Keeps.onFault _ (E.keeps_dropAll hQ true made))
      · exact fun x => ih (k + 1) (made ++ [x])
      · apply (hmake k).bind
        intro x
        apply (keeps_require _ _).bind
        exact fun _ => keeps_pure _

end Chores

section Code

variable (hQ : ∀ e : Event α, e.place? = none → Q e) {source : Nat → Act (World σ α) α}
  (hsource : ∀ k, Keeps (w₀.Evolves Q) (source k))

include hQ hsource

/-- Clones of what a source comes to. -/
theorem keeps_cloneFrom (k : Nat) : Keeps (w₀.Evolves Q) (do E.clone (← source k)) :=
  (hsource k).bind fun x => E.keeps_clone hQ x

/-- Cloning over elements keeps the region. -/
theorem keeps_overwriteFrom (k count : Nat) :
    Keeps (Under h P Q w₀) (overwriteFrom E source k count) := by
  induction count generalizing k with
  | zero => exact keeps_pure _
  | succ count ih =>
      apply (keeps_inWorld (hsource k)).bind
      intro x
      exact (keeps_inSlot k (E.keeps_overwrite hQ x)).bind fun _ => ih (k + 1)

/-- Appending clones within the capacity keeps the region. -/
theorem keeps_storeFrom (count : Nat) : Keeps (Under h P Q w₀) (storeFrom E source count) := by
  induction count with
  | zero => exact keeps_pure _
  | succ count ih =>
      apply keeps_held
      intro s _
      apply (keeps_inWorld (keeps_cloneFrom hQ hsource _)).bind
      intro x
      exact (keeps_store x).bind fun _ => ih

end Code

/-! ## Storage -/

section Upkeep

variable (hQ : ∀ e : Event α, e.Upkeep h.allocator.place most → Q e)

include hQ

/-- The old block goes back to the allocator of the handle. -/
theorem keeps_install {region : Region} (hregion : P region) (items : List α) :
    Keeps (Under h P Q w₀) (install E region items) := by
  apply keeps_held
  rintro s ⟨rfl, -⟩
  apply (keeps_hold (s := { s with region, items }) ⟨rfl, hregion⟩).bind
  exact fun _ => keeps_inWorld (Region.keeps_release hQ _ _)

/-- Giving a sequence up is upkeep at the allocator of its handle. -/
theorem keeps_dispose (unwinding : Bool) {s : Sequence α} (hs : s.handle = h) :
    Keeps (w₀.Evolves Q) (s.dispose E unwinding) := by
  subst hs
  apply (E.keeps_dropAll (Event.chore_of_upkeep hQ) unwinding s.items).ensuring
  exact fun _ => Region.keeps_release hQ _ _

/-- The old elements and the old block go, whichever drop faults. -/
theorem keeps_replace {region : Region} (hregion : P region) (items : List α) :
    Keeps (Under h P Q w₀) (replace E region items) := by
  apply keeps_held
  intro s hs
  apply (keeps_hold (s := { s with region, items }) ⟨hs.1, hregion⟩).bind
  exact fun _ => keeps_inWorld (keeps_dispose hQ false hs.1)

/-- The new block is of the size asked for, and the old one goes back. -/
theorem keeps_reallocate {capacity : Nat} (hle : E.bytes * capacity ≤ most)
    (hP : ∀ r, r.capacity = capacity → P r) : Keeps (Under h P Q w₀) (reallocate E capacity) := by
  apply keeps_held
  rintro s ⟨rfl, -⟩
  apply (keeps_require _ _).bind
  intro _
  apply (yields_inWorld (V := fun r => r.1.capacity = capacity) _).bind_keeps
  · exact fun r hr => keeps_install hQ (hP _ hr) _
  · apply (World.keeps_note (Event.chore_of_upkeep hQ) _).bind_yields
    intro _
    apply (Staging.yields_allocate E hQ hle).bind
    intro _ hs
    apply (Staging.yields_moveAfter _ hs).bind
    exact fun _ hs => Staging.yields_adopt hs

/-- Giving up spare slots asks for as much as the elements take, whatever the handle admits. -/
theorem shrink_evolves {s : Sequence α} {w : World σ α} (hs : s.handle = h ∧ P s.region)
    (hle : E.bytes * s.len ≤ most) (hP : ∀ r, r.capacity ≤ s.len → P r) (hw : w₀.Evolves Q w) :
    (shrink E (s, w)).Meets (.always (Under h P Q w₀)) := by
  simp only [shrink, bind_meets, held_meets, ite_meets, pure_meets, hold_meets]
  refine ⟨fun _ => ⟨hs, hw⟩, fun _ => ⟨fun _ => ?_, fun _ => ?_⟩⟩
  · obtain ⟨rfl, -⟩ := hs
    exact keeps_inWorld (Region.keeps_release hQ _ _) _ ⟨⟨rfl, hP _ (Nat.zero_le _)⟩, hw⟩
  · exact keeps_reallocate hQ hle (fun r hr => hP r (Nat.le_of_eq hr)) _ ⟨hs, hw⟩

/-- Work on a new sequence leaves its handle; giving the sequence up only adds upkeep. -/
theorem yields_build {work : SequenceAct σ α β} (hempty : P .empty)
    (hwork : Keeps (Under h P Q w₀) work) :
    Yields (w₀.Evolves Q) (fun r => r.1.handle = h ∧ P r.1.region) (build E h work) := by
  intro w hw
  rw [build, owning_meets]
  apply (hwork (empty h, w) ⟨⟨rfl, hempty⟩, hw⟩).imp
  · exact fun _ _ hu => hu
  · exact fun _ u hu => keeps_dispose hQ false hu.1.1 u.2 hu.2
  · exact fun _ u hu => keeps_dispose hQ true hu.1.1 u.2 hu.2

/-- Elements that are made in a new region are a sequence under the handle that is given to it. -/
theorem yields_made {count : Nat} (hle : E.bytes * count ≤ most) {make : Nat → Act (World σ α) α}
    (hmake : ∀ k, Keeps (w₀.Evolves Q) (make k)) :
    Yields (w₀.Evolves Q) (fun s => s.handle = h ∧ s.region.capacity = count) (do
      let staging ← Staging.allocate E h.allocator count
      let staging ← staging.extend E make 0 count
      let (region, items) ← staging.adopt
      return (⟨region, items, h⟩ : Sequence α)) := by
  apply (Staging.yields_allocate E hQ hle).bind
  intro _ hs
  apply (Staging.yields_extend E hQ hmake _ _ hs).bind
  intro _ hs
  apply (Staging.yields_adopt hs).bind
  exact fun _ hr => yields_pure ⟨rfl, hr⟩

/-! ## Growth -/

section Growth

variable (hmax : h.maxBytes ≤ most) (hP : ∀ r, r.capacity ≤ h.maxSize E.bytes → P r)

include hmax hP

/-- A reservation reallocates at most, within the limit. -/
theorem keeps_reserve (capacity : Nat) : Keeps (Under h P Q w₀) (reserve E capacity) := by
  apply keeps_held
  rintro s ⟨rfl, -⟩
  apply Keeps.ite (fun _ => keeps_pure _)
  intro _
  apply keeps_ofExcept_bind
  intro _ hcheck
  have hfits := Capacity.check_eq_ok_iff.mp hcheck
  exact keeps_reallocate hQ (Handle.mul_le hmax hfits) fun r hr => hP r (hr ▸ hfits)

theorem keeps_reserveMore (additional : Nat) :
    Keeps (Under h P Q w₀) (reserveMore E additional) := by
  apply keeps_held
  rintro s ⟨rfl, -⟩
  apply keeps_ofExcept_bind
  intro required _
  apply Keeps.ite (fun _ => keeps_pure _)
  intro _
  apply keeps_ofExcept_bind
  intro capacity hgrow
  have hfits := (Capacity.grow_bounds hgrow).2
  exact keeps_reallocate hQ (Handle.mul_le hmax hfits) fun r hr => hP r (hr ▸ hfits)

theorem keeps_reserveHinted (hint : Option Nat) :
    Keeps (Under h P Q w₀) (reserveHinted E hint) := by
  apply keeps_held
  intro s _
  cases hint with
  | none => exact keeps_pure _
  | some n => exact keeps_reserve hQ hmax hP _

/-- A push into a full sequence has a block of the grown capacity. -/
theorem keeps_pushGrown {make : Act (World σ α) α} (hmake : Keeps (w₀.Evolves Q) make) :
    Keeps (Under h P Q w₀) (pushGrown E make) := by
  apply keeps_held
  rintro s ⟨rfl, -⟩
  apply keeps_ofExcept_bind
  intro required _
  apply keeps_ofExcept_bind
  intro capacity hgrow
  have hfits := (Capacity.grow_bounds hgrow).2
  apply (yields_inWorld (V := fun r => r.1.capacity = capacity) _).bind_keeps
  · exact fun r hr => keeps_install hQ (hP _ (hr ▸ hfits)) _
  · apply (World.keeps_note (Event.chore_of_upkeep hQ) _).bind_yields
    intro _
    apply (Staging.yields_allocate E hQ (Handle.mul_le hmax hfits)).bind
    intro _ hs
    apply (Staging.yields_seek _ hs).bind
    intro _ hs
    apply (Staging.yields_append E hQ hmake hs).bind
    intro _ hs
    apply (Staging.yields_moveBefore _ hs).bind
    exact fun _ hs => Staging.yields_adopt hs

/-- A push grows only when it must. -/
theorem keeps_pushBy {make : Act (World σ α) α} (hmake : Keeps (w₀.Evolves Q) make) :
    Keeps (Under h P Q w₀) (pushBy E make) := by
  apply keeps_held
  intro s _
  apply Keeps.ite (fun _ => keeps_pushGrown hQ hmax hP hmake)
  intro _
  apply (keeps_inWorld hmake).bind
  exact fun _ => keeps_store _

theorem keeps_push (x : α) : Keeps (Under h P Q w₀) (push E x) := by
  have hchore := Event.chore_of_upkeep hQ
  apply (keeps_inWorld (World.keeps_receive hchore x)).bind
  intro _
  apply (keeps_pushBy hQ hmax hP (keeps_pure x)).onRefusal
  exact keeps_inWorld (E.keeps_drop hchore _ _)

theorem keeps_pushValid (items : Feed (Option α)) :
    Keeps (Under h P Q w₀) (items.pushValid (push E)) :=
  Feed.keeps_pushValid (fun x => keeps_push hQ hmax hP x) items

/-- An insertion into a full sequence has a block of the grown capacity. -/
theorem keeps_insertGrown (position count : Nat) {make : (Nat → Option α) → Nat → Act (World σ α) α}
    (hmake : ∀ former? k, Keeps (w₀.Evolves Q) (make former? k)) :
    Keeps (Under h P Q w₀) (insertGrown E position count make) := by
  apply keeps_held
  rintro s ⟨rfl, -⟩
  apply keeps_ofExcept_bind
  intro required _
  apply keeps_ofExcept_bind
  intro capacity hgrow
  have hfits := (Capacity.grow_bounds hgrow).2
  apply (yields_inWorld (V := fun r => r.1.capacity = capacity) _).bind_keeps
  · intro r hr
    apply (keeps_require _ _).bind
    exact fun _ => keeps_install hQ (hP _ (hr ▸ hfits)) _
  · apply (World.keeps_note (Event.chore_of_upkeep hQ) _).bind_yields
    intro _
    apply (Staging.yields_allocate E hQ (Handle.mul_le hmax hfits)).bind
    intro _ hs
    apply (Staging.yields_seek _ hs).bind
    intro _ hs
    apply (Staging.yields_extend E hQ (hmake _) _ _ hs).bind
    intro _ hs
    apply (Staging.yields_moveBefore _ hs).bind
    intro _ hs
    apply (Staging.yields_moveAfter _ hs).bind
    exact fun _ hs => Staging.yields_adopt hs

/-- An insertion grows only when it must. -/
theorem keeps_insertBy (position : Nat) {make : Act (World σ α) α}
    (hmake : Keeps (w₀.Evolves Q) make) : Keeps (Under h P Q w₀) (insertBy E position make) := by
  rw [insertBy_eq]
  apply keeps_held
  intro s hs
  apply keeps_ofExcept_bind
  intro _ _
  apply Keeps.ite (fun _ => keeps_insertGrown hQ hmax hP _ _ fun _ _ => hmake)
  intro _
  apply (keeps_inWorld hmake).bind
  intro _
  apply (keeps_require _ _).bind
  exact fun _ => keeps_hold hs

theorem keeps_insert (position : Nat) (x : α) : Keeps (Under h P Q w₀) (insert E position x) := by
  have hchore := Event.chore_of_upkeep hQ
  apply (keeps_inWorld (World.keeps_receive hchore x)).bind
  intro _
  apply (keeps_insertBy hQ hmax hP position (keeps_pure x)).onRefusal
  exact keeps_inWorld (E.keeps_drop hchore _ _)

theorem keeps_insertMade (position count : Nat) {make : (Nat → Option α) → Nat → Act (World σ α) α}
    (hmake : ∀ former? k, Keeps (w₀.Evolves Q) (make former? k)) :
    Keeps (Under h P Q w₀) (insertMade E position count make) := by
  rw [insertMade_eq]
  apply keeps_held
  intro s hs
  apply keeps_ofExcept_bind
  intro _ _
  apply Keeps.ite (fun _ => keeps_pure _)
  intro _
  apply keeps_ofExcept_bind
  intro required _
  apply keeps_ofExcept_bind
  intro _ _
  apply Keeps.ite (fun _ => keeps_insertGrown hQ hmax hP position count hmake)
  intro _
  apply (keeps_hold (s := { s with items := s.items.take position }) hs).bind
  exact fun _ => keeps_fillBetween (hmake _) count []

/-- A resize reallocates at most, within the limit. -/
theorem keeps_resizeMade (n : Nat) {make : Nat → Act (World σ α) α}
    (hmake : ∀ k, Keeps (w₀.Evolves Q) (make k)) :
    Keeps (Under h P Q w₀) (resizeMade E n make) := by
  have hchore := Event.chore_of_upkeep hQ
  apply keeps_held
  rintro s ⟨rfl, hregion⟩
  apply Keeps.ite (fun _ => keeps_truncate hchore n)
  intro _
  apply keeps_ofExcept_bind
  intro _ hcheck
  apply Keeps.ite
  · intro _
    apply (keeps_inWorld (keeps_makeTail hchore hmake _ _ _ _ _)).bind
    exact fun _ => keeps_hold ⟨rfl, hregion⟩
  · intro _
    have hfits := Capacity.check_eq_ok_iff.mp hcheck
    apply (yields_inWorld (V := fun r => r.1.capacity = n) _).bind_keeps
    · exact fun r hr => keeps_install hQ (hP _ (hr ▸ hfits)) _
    · apply (Staging.yields_allocate E hQ (Handle.mul_le hmax hfits)).bind
      intro _ hs
      apply (Staging.yields_seek _ hs).bind
      intro _ hs
      apply (Staging.yields_extend E hQ hmake _ _ hs).bind
      intro _ hs
      apply (Staging.yields_moveBefore _ hs).bind
      exact fun _ hs => Staging.yields_adopt hs

/-- The block of a new sequence is of the capacity asked for. -/
theorem yields_withCapacity (capacity : Nat) :
    Yields (w₀.Evolves Q) (fun s => s.handle = h ∧ P s.region) (withCapacity E capacity h) := by
  apply (yields_build hQ (hP _ (Nat.zero_le _)) (keeps_reserve hQ hmax hP capacity)).bind
  exact fun _ hr => yields_pure hr

/-- A sequence that is read has the handle it was given, and grew under it. -/
theorem yields_read (hint : Option Nat) (items : Feed (Option α)) :
    Yields (w₀.Evolves Q) (fun slot => ∀ s, slot = some s → s.handle = h ∧ P s.region)
      (read E hint items h) := by
  have hpushed : Keeps (Under h P Q w₀) (do reserveHinted E hint; items.pushValid (push E)) :=
    (keeps_reserveHinted hQ hmax hP hint).bind fun _ => keeps_pushValid hQ hmax hP items
  apply (yields_build hQ (hP _ (Nat.zero_le _)) hpushed).bind
  intro r hr
  by_cases hvalid : r.2
  · simp only [hvalid, if_true]
    apply yields_pure
    intro s hs
    exact Option.some.inj hs ▸ hr
  · simp only [hvalid]
    apply (keeps_dispose hQ false hr.1).bind_yields
    intro _
    apply yields_pure
    intro s hs
    cases hs

end Growth

end Upkeep

/-! ## Elements that element code makes -/

section Code

variable (hQ : ∀ e : Event α, e.Local h.allocator.place most → Q e)

include hQ

/-- What is asked for is the room for `count` elements, if the handle admits that. -/
theorem keeps_assignMade (count : Nat) (hle : count ≤ h.maxSize E.bytes → E.bytes * count ≤ most)
    (hP : ∀ r, r.capacity = count → r.capacity ≤ h.maxSize E.bytes → P r) {source : Nat → Act (World σ α) α}
    (hsource : ∀ k, Keeps (w₀.Evolves Q) (source k)) :
    Keeps (Under h P Q w₀) (assignMade E count source) := by
  have hunasked := Event.unasked_of_local hQ
  apply keeps_held
  rintro s ⟨rfl, -⟩
  apply Keeps.ite
  · intro _
    apply (keeps_overwriteFrom hunasked hsource 0 count).bind
    exact fun _ => keeps_truncate (Event.chore_of_local hQ) count
  · intro _
    apply keeps_ofExcept_bind
    intro _ hcheck
    apply Keeps.ite
    · intro _
      apply (keeps_overwriteFrom hunasked hsource 0 s.len).bind
      exact fun _ => keeps_storeFrom hunasked hsource _
    · intro _
      have hupkeep := Event.upkeep_of_local hQ
      have hfits := Capacity.check_eq_ok_iff.mp hcheck
      apply (yields_inWorld (V := fun r => r.1.capacity = count) _).bind_keeps
      · exact fun r hr => keeps_replace hupkeep (hP _ hr (hr ▸ hfits)) _
      · apply (Staging.yields_allocate E hupkeep (hle hfits)).bind
        intro _ hs
        apply (Staging.yields_extend E hupkeep (keeps_cloneFrom hunasked hsource) _ _ hs).bind
        exact fun _ hs => Staging.yields_adopt hs

/-- An assignment has a block of exactly the new length, or keeps its own. -/
theorem keeps_assignAll (xs : List α)
    (hle : xs.length ≤ h.maxSize E.bytes → E.bytes * xs.length ≤ most)
    (hP : ∀ r, r.capacity = xs.length → r.capacity ≤ h.maxSize E.bytes → P r) :
    Keeps (Under h P Q w₀) (assignAll E xs) :=
  keeps_assignMade hQ _ hle hP fun _ => keeps_ofOption _ _

/-- A copy asks for as much as the elements take, whatever the handle admits. -/
theorem yields_copy {s : Sequence α} (hs : s.handle = h) (hle : E.bytes * s.len ≤ most) :
    Yields (w₀.Evolves Q) (fun t => t.handle = h ∧ t.region.capacity = s.len) (s.copy E) := by
  subst hs
  apply yields_made (Event.upkeep_of_local hQ) hle
  exact keeps_cloneFrom (Event.unasked_of_local hQ) fun _ => keeps_ofOption _ _

/-- A copy has the same handle and a block of exactly the length. -/
theorem yields_copyDemanded {s : Sequence α} (hs : s.handle = h) (hle : E.bytes * s.len ≤ most) :
    Yields (w₀.Evolves Q) (fun t => t.handle = h ∧ t.region.capacity = s.len) (s.copyDemanded E) := by
  intro w hw
  have hcopy := yields_copy (E := E) hQ hs hle w hw
  unfold copyDemanded
  split
  · rename_i he
    rw [he] at hcopy
    exact hcopy
  · exact hcopy

section Growth

variable (hmax : h.maxBytes ≤ most) (hP : ∀ r, r.capacity ≤ h.maxSize E.bytes → P r)

include hmax hP

/-- Pushing what an iterator gives grows only when it must. -/
theorem keeps_pushFeed (feed : Feed α) : Keeps (Under h P Q w₀) (pushFeed E feed) := by
  have hrecord : ∀ e : Event α, e.place? = none →
      Keeps (Under h P Q w₀) (inWorld (World.record e)) :=
    fun _ he => keeps_inWorld (World.keeps_record_unasked (Event.unasked_of_local hQ) he)
  induction feed with
  | finish => exact hrecord _ rfl
  | raise message => exact (hrecord _ rfl).bind fun _ => keeps_fault _
  | yield x rest ih =>
      apply (hrecord _ rfl).bind
      intro _
      exact (keeps_push (Event.upkeep_of_local hQ) hmax hP x).bind fun _ => ih

/-- So does an insertion of what an iterator gives, which appends and rotates. -/
theorem keeps_insertFeed (position : Nat) (feed : Feed α) :
    Keeps (Under h P Q w₀) (insertFeed E position feed) := by
  have hchore := Event.chore_of_local hQ
  apply keeps_held
  intro before _
  apply keeps_ofExcept_bind
  intro _ _
  apply ((keeps_pushFeed hQ hmax hP feed).onRefusal _).bind
  · exact fun _ => keeps_rotate _ _
  · apply keeps_held
    intro s _
    apply (keeps_inWorld (World.keeps_note hchore _)).bind
    exact fun _ => keeps_truncate hchore _

theorem keeps_extendFeed (feed : Feed α) : Keeps (Under h P Q w₀) (extendFeed E feed) := by
  apply keeps_held
  exact fun s _ => keeps_insertFeed hQ hmax hP s.len feed

/-- Assigning over the elements keeps the region until they are used up. -/
theorem keeps_supplantFrom (len k : Nat) (feed : Feed α) :
    Keeps (Under h P Q w₀) (supplantFrom E len k feed) := by
  have hchore := Event.chore_of_local hQ
  have hrecord : ∀ e : Event α, e.place? = none →
      Keeps (Under h P Q w₀) (inWorld (World.record e)) :=
    fun _ he => keeps_inWorld (World.keeps_record_unasked (Event.unasked_of_local hQ) he)
  induction feed generalizing k with
  | finish =>
      apply (hrecord _ rfl).bind
      intro _
      exact Keeps.ite (fun _ => keeps_truncate hchore k) (fun _ => keeps_pure _)
  | raise message => exact (hrecord _ rfl).bind fun _ => keeps_fault _
  | yield x rest ih =>
      apply (hrecord _ rfl).bind
      intro _
      apply Keeps.ite
      · intro _
        apply (keeps_inWorld (World.keeps_receive hchore x)).bind
        intro _
        exact (keeps_supplant hchore k x).bind fun _ => ih (k + 1)
      · intro _
        exact (keeps_push (Event.upkeep_of_local hQ) hmax hP x).bind fun _ => ih (k + 1)

theorem keeps_assignFeed (feed : Feed α) : Keeps (Under h P Q w₀) (assignFeed E feed) := by
  apply keeps_held
  exact fun s _ => keeps_supplantFrom hQ hmax hP s.len 0 feed

/-- An insertion of copies grows only when it must. -/
theorem keeps_insertCopies (position count : Nat) (x : α) :
    Keeps (Under h P Q w₀) (insertCopies E position count x) :=
  keeps_insertMade (Event.upkeep_of_local hQ) hmax hP position count fun _ _ =>
    E.keeps_clone (Event.unasked_of_local hQ) x

theorem keeps_insertAll (position : Nat) (xs : List α) :
    Keeps (Under h P Q w₀) (insertAll E position xs) :=
  keeps_insertMade (Event.upkeep_of_local hQ) hmax hP position xs.length fun _ =>
    keeps_cloneFrom (Event.unasked_of_local hQ) fun _ => keeps_ofOption _ _

theorem keeps_extendAll (xs : List α) : Keeps (Under h P Q w₀) (extendAll E xs) := by
  apply keeps_held
  exact fun s _ => keeps_insertAll hQ hmax hP s.len xs

theorem keeps_insertOwn (position : Nat) (span : Span) :
    Keeps (Under h P Q w₀) (insertOwn E position span) := by
  apply keeps_held
  intro s _
  apply keeps_ofExcept_bind
  intro bounds _
  exact keeps_insertMade (Event.upkeep_of_local hQ) hmax hP position _ fun _ =>
    keeps_cloneFrom (Event.unasked_of_local hQ) fun _ => keeps_ofOption _ _

/-- A resize to copies of an element reallocates at most, and drops the element. -/
theorem keeps_resize (n : Nat) (x : α) : Keeps (Under h P Q w₀) (resize E n x) := by
  have hchore := Event.chore_of_local hQ
  apply (keeps_inWorld (World.keeps_receive hchore x)).bind
  intro _
  apply Keeps.ensuring
  · exact keeps_resizeMade (Event.upkeep_of_local hQ) hmax hP n fun _ =>
      E.keeps_clone (Event.unasked_of_local hQ) x
  · exact fun unwinding => keeps_inWorld (E.keeps_drop hchore unwinding x)

/-- A sequence of copies has a block of their number. -/
theorem yields_replicate (count : Nat) (x : α) :
    Yields (w₀.Evolves Q) (fun s => s.handle = h ∧ P s.region) (replicate E count x h) := by
  apply (yields_ofExcept _).bind
  intro _ hcheck
  have hfits := Capacity.check_eq_ok_iff.mp hcheck
  have hclone : Keeps (w₀.Evolves Q) (E.clone x) := E.keeps_clone (Event.unasked_of_local hQ) x
  apply (yields_made (Event.upkeep_of_local hQ) (Handle.mul_le hmax hfits) fun _ => hclone).imp
  exact fun s hs => ⟨hs.1, hP s.region (hs.2 ▸ hfits)⟩

/-- A sequence of given elements has a block of their number. -/
theorem yields_ofList (xs : List α) :
    Yields (w₀.Evolves Q) (fun s => s.handle = h ∧ P s.region) (ofList E xs h) := by
  have hassign : Keeps (Under h P Q w₀) (assignAll E xs) :=
    keeps_assignAll hQ xs (Handle.mul_le hmax) fun r _ => hP r
  apply (yields_build (Event.upkeep_of_local hQ) (hP _ (Nat.zero_le _)) hassign).bind
  exact fun _ hr => yields_pure hr

end Growth

end Code

/-! ## Two sequences -/

/-- A complete copy takes the place of the contents where the handle of the other sequence comes along and
blocks cannot pass. -/
theorem copyFrom_foreign {s other : Sequence α} {w : World σ α}
    (hforeign : s.handle.Foreign other.handle) :
    copyFrom E other (s, w) = (do
      let copied ← inWorld (other.copy E)
      hold copied
      inWorld (s.dispose E false) : SequenceAct σ α Unit) (s, w) := by
  have hcomes : (other.handle.propagates && !s.handle.isEquivalent other.handle) = true := by
    simp only [hforeign.1, hforeign.2, Bool.not_false, Bool.and_self]
  simp only [copyFrom, bind, Act.bind, held, hcomes, if_true]

/-- Where the other handle is foreign, its allocator is asked for a copy, and the old contents go back: either
everything stays, or the copy is there under the other handle. -/
theorem copyFrom_evolves_foreign {s other : Sequence α} {w : World σ α}
    (hforeign : s.handle.Foreign other.handle)
    (hQ : ∀ e : Event α, e.Upkeep s.handle.allocator.place 0 → Q e)
    (hQ' : ∀ e : Event α, e.Local other.handle.allocator.place most → Q e)
    (hle : E.bytes * other.len ≤ most) (hw : w₀.Evolves Q w) :
    (copyFrom E other (s, w)).Meets (.always fun u =>
      (u.1.handle = s.handle ∧ u.1.region = s.region ∨
        u.1.handle = other.handle ∧ u.1.region.capacity = other.len) ∧ w₀.Evolves Q u.2) := by
  rw [copyFrom_foreign hforeign]
  simp only [bind_meets, inWorld_meets, hold_meets]
  apply (yields_copy hQ' rfl hle w hw).imp
  · intro t w' ht
    have hgone := keeps_dispose (E := E) hQ false rfl w' ht.2
    exact hgone.always_imp fun _ hw' => ⟨.inr ht.1, hw'⟩
  · exact fun _ _ hw' => ⟨.inl ⟨rfl, rfl⟩, hw'⟩
  · exact fun _ _ hw' => ⟨.inl ⟨rfl, rfl⟩, hw'⟩

/-- Where the other handle is not foreign, only the allocator of the sequence's own one is asked, and either
handle may be there in the end. -/
theorem copyFrom_evolves_own {s other : Sequence α} {w : World σ α}
    (hown : ¬ s.handle.Foreign other.handle)
    (hQ : ∀ e : Event α, e.Local s.handle.allocator.place most → Q e) (hregion : P s.region)
    (hle : other.len ≤ s.maxSize E → E.bytes * other.len ≤ most)
    (hP : ∀ r, r.capacity = other.len → r.capacity ≤ s.maxSize E → P r) (hw : w₀.Evolves Q w) :
    (copyFrom E other (s, w)).Meets (.always fun u =>
      ((u.1.handle = s.handle ∨ other.handle.propagates ∧ u.1.handle = other.handle) ∧
        P u.1.region) ∧ w₀.Evolves Q u.2) := by
  have hweaken : ∀ u : Sequence α × World σ α, Under s.handle P Q w₀ u →
      ((u.1.handle = s.handle ∨ other.handle.propagates ∧ u.1.handle = other.handle) ∧
        P u.1.region) ∧ w₀.Evolves Q u.2 :=
    fun u hu => ⟨⟨.inl hu.1.1, hu.1.2⟩, hu.2⟩
  simp only [copyFrom, bind_meets, held_meets, ite_meets, Bool.and_eq_true, Bool.not_eq_true']
  refine ⟨fun hforeign => absurd hforeign hown, fun _ => ?_⟩
  apply (keeps_assignAll hQ other.items hle hP (s, w) ⟨⟨rfl, hregion⟩, hw⟩).imp
  · exact fun _ u hu => ⟨fun hcomes => ⟨⟨.inr ⟨hcomes, rfl⟩, hu.1.2⟩, hu.2⟩, fun _ => hweaken u hu⟩
  · exact fun _ u hu => hweaken u hu
  · exact fun _ u hu => hweaken u hu

/-- Where blocks cannot pass between the handles, moving asks for as much as the elements take, whatever
the handle admits.  The other sequence is left with its region, or with none. -/
theorem moveFrom_evolves {s other : Sequence α} {w : World σ α}
    (hQ : ∀ e : Event α, e.Upkeep s.handle.allocator.place most → Q e) (hregion : P s.region)
    (hle : E.bytes * other.len ≤ most)
    (hP : s.handle.isEquivalent other.handle = true → P other.region)
    (hP' : s.handle.isEquivalent other.handle = false → ∀ r, r.capacity = other.len → P r)
    (hw : w₀.Evolves Q w) :
    (moveFrom E ((s, other), w)).Meets (.always fun u => Under s.handle P Q w₀ (u.1.1, u.2) ∧
      u.1.2.handle = other.handle ∧ (u.1.2.region = other.region ∨
        s.handle.isEquivalent other.handle = true ∧ u.1.2.region = .empty)) := by
  have hreplace : ∀ (region : Region) (items : List α) (t : Sequence α) (w' : World σ α), P region →
      w₀.Evolves Q w' → t.handle = other.handle → (t.region = other.region ∨
        s.handle.isEquivalent other.handle = true ∧ t.region = .empty) →
      (onFirst (replace E region items) ((s, t), w')).Meets (.always fun u =>
        Under s.handle P Q w₀ (u.1.1, u.2) ∧ u.1.2.handle = other.handle ∧
          (u.1.2.region = other.region ∨
            s.handle.isEquivalent other.handle = true ∧ u.1.2.region = .empty)) := by
    intro region items t w' hnew hw' ht hleft
    rw [onFirst_meets]
    have hkept := keeps_replace (E := E) hQ hnew items (s, w') ⟨⟨rfl, hregion⟩, hw'⟩
    exact hkept.always_imp fun _ hu => ⟨hu, ht, hleft⟩
  have hstay : ∀ w' : World σ α, w₀.Evolves Q w' → Under s.handle P Q w₀ (s, w') ∧
      other.handle = other.handle ∧ (other.region = other.region ∨
        s.handle.isEquivalent other.handle = true ∧ other.region = .empty) :=
    fun _ hw' => ⟨⟨⟨rfl, hregion⟩, hw'⟩, rfl, .inl rfl⟩
  simp only [moveFrom, bind_meets, held_meets, ite_meets, inWorld_meets, hold_meets]
  constructor
  · exact fun hsame => hreplace _ _ _ w (hP hsame) hw rfl (.inr ⟨hsame, rfl⟩)
  · intro hapart
    apply (Staging.yields_allocate E hQ hle w hw).imp
    · intro staging w₁ hw₁
      apply (Staging.yields_moveAfter other.items hw₁.1 w₁ hw₁.2).imp
      · intro staging w₂ hw₂
        apply (Staging.yields_adopt hw₂.1 w₂ hw₂.2).imp
        · intro r w₃ hw₃
          have hnew := hP' (Bool.eq_false_iff.mpr hapart) _ hw₃.1
          exact hreplace r.1 r.2 _ w₃ hnew hw₃.2 rfl (.inl rfl)
        · exact fun _ _ hw₃ => hstay _ hw₃
        · exact fun _ _ hw₃ => hstay _ hw₃
      · exact fun _ _ hw₂ => hstay _ hw₂
      · exact fun _ _ hw₂ => hstay _ hw₂
    · exact fun _ _ hw₁ => hstay _ hw₁
    · exact fun _ _ hw₁ => hstay _ hw₁

end Sequence

/-! ## Drains -/

namespace Drain

variable {E : Element σ α} {h : Handle} {Q : Event α → Prop} {w₀ : World σ α}

/-- The drain has the handle `h`, and its world evolved from `w₀` by events that satisfy `Q`. -/
def Under (h : Handle) (Q : Event α → Prop) (w₀ : World σ α) (u : Drain α × World σ α) : Prop :=
  u.1.handle = h ∧ w₀.Evolves Q u.2

section Chores

variable (hQ : ∀ e : Event α, e.Chore → Q e)

include hQ

/-- An element that is handed out leaves the rest to the drain. -/
theorem keeps_hand {d : Drain α} (hd : d.handle = h) (rest : List α) (x : α) :
    Keeps (Under h Q w₀) (do
      hold { d with rest }
      inWorld (World.hand x)
      return some x) := by
  apply (keeps_hold fun _ _ hu => ⟨hd, hu.2⟩).bind
  intro _
  have hhanded : Keeps (Under h Q w₀) (inWorld (World.hand x)) :=
    (World.keeps_hand hQ x).beside (L := fun d' : Drain α => d'.handle = h)
  exact hhanded.bind fun _ => keeps_pure _

/-- Taking an element from the front touches no block. -/
theorem keeps_next : Keeps (Under h Q w₀) (next : Act (Drain α × World σ α) (Option α)) := by
  apply keeps_held_bind
  intro d _ hd
  split
  · exact keeps_pure _
  · exact keeps_hand hQ hd.1 _ _

/-- Taking an element from the back touches no block. -/
theorem keeps_nextBack : Keeps (Under h Q w₀) (nextBack : Act (Drain α × World σ α) (Option α)) := by
  apply keeps_held_bind
  intro d _ hd
  split
  · exact keeps_pure _
  · exact keeps_hand hQ hd.1 _ _

end Chores

/-- Giving a drain up is upkeep at the allocator of its handle. -/
theorem keeps_dispose {d : Drain α} {most : Nat}
    (hQ : ∀ e : Event α, e.Upkeep d.handle.allocator.place most → Q e) (unwinding : Bool) :
    Keeps (w₀.Evolves Q) (d.dispose E unwinding) :=
  (E.keeps_dropAll (Event.chore_of_upkeep hQ) unwinding d.rest).ensuring fun _ =>
    Region.keeps_release hQ _ _

end Drain

end Growable
