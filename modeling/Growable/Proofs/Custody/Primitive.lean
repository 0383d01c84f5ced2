import Growable.Proofs.Custody
import Growable.Source

/-!
# Custody of blocks and of single elements

What the parts do that all operations are made of: a region is allocated and released; an element is
received, cloned, overwritten, defaulted, dropped or handed out.

* A region is `Valid` when it has a block exactly if it occupies bytes, and the layout of the block
  exists; a valid region can be released (`Region.release_meets`).
* An act `Produces` an element when it comes to one that is in custody then, or faults without one;
  which elements these can be and which faults is said along with it.
* Dropping elements lets all of them go, also when drops fault (`Element.dropAll_meets`).
-/

namespace Growable

variable {σ α : Type}

/-- The alignment can be that of an empty block. -/
def Shape.Fits (shape : Shape) : Prop := shape.align ≤ Size.blockLimit + 1

/-- The fault was raised by code that is not part of the storage. -/
def Fault.IsRaised (f : Fault) : Prop := ∃ message, f = .raised message

/-- The fault is not an invariant of the storage that does not hold, as far as the elements have a
possible layout. -/
def Fault.Sanctioned (shape : Shape) (f : Fault) : Prop := shape.Fits → ∀ check, f ≠ .broken check

/-- What is raised by other code breaks no check. -/
theorem Fault.IsRaised.sanctioned {f : Fault} (h : f.IsRaised) (shape : Shape) :
    f.Sanctioned shape := by
  intro _ check hbroken
  obtain ⟨message, hraised⟩ := h
  cases hraised.symm.trans hbroken

/-- The error is a lack of memory or of size, not an index out of bounds. -/
def SequenceError.IsLack : SequenceError → Prop
  | outOfBounds _ _ => False
  | _ => True

/-- Whatever else is in custody, the assets `m` in `w` are the assets `m'` in `w'`. -/
def World.Becomes (w : World σ α) (m : Multiset (Asset α)) (w' : World σ α)
    (m' : Multiset (Asset α)) : Prop :=
  ∀ rest, w.Owns (m + rest) → w'.Owns (m' + rest)

/-! ## Blocks -/

/-- A request comes to a block, or to a lack of memory and nothing else. -/
theorem World.request_meets (allocator : Allocator) (bytes : Nat) (w : World σ α) :
    (request allocator bytes w).Meets ⟨fun block w' => w.Becomes 0 w' {.block block bytes},
      fun e w' => e.IsLack ∧ w.Becomes 0 w' 0, fun _ _ => False⟩ := by
  unfold request
  simp only [Act.bind_meets, Act.get_meets, Act.ite_meets, Act.modify_meets, Act.pure_meets,
    Act.refuse_meets]
  constructor
  · intro _ rest h
    have hlost : w.Owns (rest + (Event.granted allocator.place w.issued bytes : Event α).losses) :=
      h.of_eq (by simp [Event.losses, Event.leaving])
    exact (hlost.push _ rfl).of_eq (by simp [Event.gains, add_comm])
  · intro _
    refine ⟨trivial, fun rest h => ?_⟩
    have hlost : w.Owns (rest + (Event.declined allocator.place bytes : Event α).losses) :=
      h.of_eq (by simp [Event.losses, Event.leaving])
    exact (hlost.push _ rfl).of_eq (by simp [Event.gains, Event.entering])

/-- A block goes back, and then it is in custody no more. -/
theorem World.giveBack_meets (allocator : Allocator) (block : Block) (bytes : Nat)
    (w : World σ α) :
    (giveBack allocator block bytes w).Meets
      (.returns fun _ w' => w.Becomes {.block block bytes} w' 0) := by
  unfold giveBack
  simp only [Act.bind_meets, Act.modify_meets]
  intro rest h
  have hlost : w.Owns (rest + (Event.returned allocator.place block bytes : Event α).losses) :=
    h.of_eq (by simp [Event.losses, add_comm])
  exact (hlost.push _ rfl).of_eq (by simp [Event.gains, Event.entering])

namespace Region

/-- The block of a region as an asset. -/
def assets (shape : Shape) (r : Region) : Multiset (Asset α) :=
  match r.block with
  | some block => {.block block (shape.bytes * r.capacity)}
  | none => 0

/-- A region has a block exactly if it occupies bytes, and a block that can exist. -/
structure Valid (shape : Shape) (r : Region) : Prop where
  block_eq_none_iff : r.block = none ↔ shape.bytes * r.capacity = 0
  layout : r.block ≠ none → shape.bytes * r.capacity + shape.align ≤ Size.blockLimit + 1

@[simp] theorem assets_empty (shape : Shape) : (empty.assets shape : Multiset (Asset α)) = 0 := rfl

/-- A region without slots needs no block. -/
theorem valid_empty (shape : Shape) : empty.Valid shape :=
  ⟨by simp [empty], by simp [empty]⟩

/-- An allocation comes to a valid region, or to a lack of memory and nothing else. -/
theorem allocate_meets (shape : Shape) (allocator : Allocator) (capacity : Nat) (w : World σ α) :
    (allocate shape allocator capacity w).Meets
      ⟨fun r w' => r.Valid shape ∧ r.capacity = capacity ∧ w.Becomes 0 w' (r.assets shape),
        fun e w' => e.IsLack ∧ w.Becomes 0 w' 0, fun _ _ => False⟩ := by
  unfold allocate
  cases hsome : bytes? shape capacity with
  | none => exact ⟨trivial, fun _ h => h⟩
  | some bytes =>
      obtain ⟨hbytes, hlayout⟩ := bytes?_eq_some_iff.mp hsome
      cases bytes with
      | zero => exact ⟨⟨by simp [hbytes], by simp⟩, rfl, fun _ h => h⟩
      | succ n =>
          apply Act.bind_meets.mpr
          refine (World.request_meets allocator (n + 1) w).imp ?_ (fun _ _ h => h) (fun _ _ h => h)
          intro block w' hgranted
          refine ⟨⟨by simp [hbytes], fun _ => by simpa [hbytes] using hlayout⟩, rfl, ?_⟩
          simpa [assets, hbytes] using hgranted

/-- A valid region is released, and its block leaves custody. -/
theorem release_meets {shape : Shape} {r : Region} (hr : r.Valid shape) (allocator : Allocator)
    (w : World σ α) :
    (release shape allocator r w).Meets ⟨fun _ w' => w.Becomes (r.assets shape) w' 0,
      fun _ _ => False,
      fun f w' => f.Sanctioned shape ∧ ¬ shape.Fits ∧ w.Becomes (r.assets shape) w' 0⟩ := by
  unfold release
  simp only [Act.bind_meets, Act.ofOption_meets, Act.ite_meets, Act.pure_meets]
  cases hblock : r.block with
  | none =>
      have hzero := hr.block_eq_none_iff.mp hblock
      have hassets : (r.assets shape : Multiset (Asset α)) = 0 := by simp [assets, hblock]
      rw [hassets]
      constructor
      · intro bytes hbytes
        have := (bytes?_eq_some_iff.mp hbytes).1
        exact ⟨fun _ _ h => h, fun hne => absurd (this.symm.trans hzero) hne⟩
      · intro hnone
        have hmisfit : ¬ shape.Fits := by
          intro hfits
          have := bytes?_eq_some_iff.mpr ⟨hzero, by simpa [Shape.Fits] using hfits⟩
          exact absurd (this.symm.trans hnone) (by simp)
        exact ⟨fun hfits => absurd hfits hmisfit, hmisfit, fun _ h => h⟩
  | some block =>
      have hne : shape.bytes * r.capacity ≠ 0 := fun hz => by
        simp [hr.block_eq_none_iff.mpr hz] at hblock
      have hsome := bytes?_eq_some_iff.mpr ⟨rfl, hr.layout (by simp [hblock])⟩
      constructor
      · intro bytes hbytes
        obtain rfl := Option.some.inj (hsome.symm.trans hbytes)
        refine ⟨fun hz => absurd hz hne, fun _ => ⟨?_, by simp⟩⟩
        intro b hb
        obtain rfl := Option.some.inj hb
        apply (World.giveBack_meets allocator block _ w).of_returns
        intro _ w' hgone
        simpa [assets, hblock] using hgone
      · intro hnone
        exact absurd (hsome.symm.trans hnone) (by simp)

end Region

/-! ## Single elements -/

/-- In some state, element code comes to a value. -/
def CanYield {β : Type} (code : σ → Except String β × σ) (b : β) : Prop := ∃ c, (code c).1 = .ok b

/-- In some state, element code raises a fault. -/
def CanRaise {β : Type} (code : σ → Except String β × σ) (f : Fault) : Prop :=
  ∃ c message, (code c).1 = .error message ∧ f = .raised message

/-- Code of the elements raises nothing but messages. -/
theorem CanRaise.isRaised {β : Type} {code : σ → Except String β × σ} {f : Fault}
    (h : CanRaise code f) : f.IsRaised := by
  obtain ⟨_, message, _, hf⟩ := h
  exact ⟨message, hf⟩

/-- The act comes to an element that satisfies `P` and is in custody then, having used up the assets
`given`; or it raises a fault that satisfies `F`, and leaves no element. -/
def Act.Produces (given : Multiset (Asset α)) (P : α → Prop) (F : Fault → Prop)
    (make : Act (World σ α) α) : Prop :=
  ∀ (w : World σ α) (m : Multiset (Asset α)), w.Owns (given + m) →
    (make w).Meets ⟨fun x w' => P x ∧ w'.Owns ({.element x} + m), fun _ _ => False,
      fun f w' => F f ∧ f.IsRaised ∧ w'.Owns m⟩

/-- What is claimed of the element and of the fault may be weakened. -/
theorem Act.Produces.imp {given : Multiset (Asset α)} {P P' : α → Prop} {F F' : Fault → Prop}
    {make : Act (World σ α) α} (h : Act.Produces given P F make) (hP : ∀ x, P x → P' x)
    (hF : ∀ f, F f → F' f) : Act.Produces given P' F' make :=
  fun w m hw => (h w m hw).imp (fun x _ hx => ⟨hP x hx.1, hx.2⟩) (fun _ _ => id)
    (fun f _ hf => ⟨hF f hf.1, hf.2⟩)

/-- An element that is there already is produced by doing nothing. -/
theorem Act.produces_pure (x : α) :
    Act.Produces {.element x} (· = x) (fun _ => False) (pure x : Act (World σ α) α) :=
  fun _ _ h => ⟨rfl, h⟩

namespace World

/-- A received element is in custody. -/
theorem receive_meets (x : α) {w : World σ α} {m : Multiset (Asset α)} (h : w.Owns m) :
    (receive x w).Meets (.returns fun _ w' => w'.Owns ({.element x} + m)) := by
  have hlost : w.Owns (m + (Event.received x).losses) :=
    h.of_eq (by simp [Event.losses, Event.leaving])
  exact (hlost.push _ rfl).of_eq (by simp [Event.gains, Event.entering, add_comm])

/-- An element that is handed over is in custody no more. -/
theorem hand_meets (x : α) {w : World σ α} {m : Multiset (Asset α)}
    (h : w.Owns ({.element x} + m)) :
    (hand x w).Meets (.returns fun _ w' => w'.Owns m) := by
  have hlost : w.Owns (m + (Event.handed x).losses) :=
    h.of_eq (by simp [Event.losses, Event.leaving, add_comm])
  exact (hlost.push _ rfl).of_eq (by simp [Event.gains, Event.entering])

/-- An event that moves no assets. -/
theorem record_meets {e : Event α} (hgains : e.gains = 0) (hlosses : e.losses = 0)
    {w : World σ α} {m : Multiset (Asset α)} (h : w.Owns m) :
    (record e w).Meets (.returns fun _ w' => w'.Owns m) := by
  have hlost : w.Owns (m + e.losses) := h.of_eq (by simp [hlosses])
  exact (hlost.push e rfl).of_eq (by simp [hgains])

/-- A note moves no asset. -/
theorem note_meets (n : Note) {w : World σ α} {m : Multiset (Asset α)} (h : w.Owns m) :
    (note n w).Meets (.returns fun _ w' => w'.Owns m) :=
  record_meets rfl rfl h

end World

/-- A closure produces what its call returns, and raises what its call raises. -/
theorem Maker.produces (maker : Maker α) (k : Nat) :
    Act.Produces 0 (fun x => maker.onCall k = .ok x)
      (fun f => ∃ message, maker.onCall k = .error message ∧ f = .raised message)
      (maker.call k : Act (World σ α) α) := by
  intro w m h
  rw [zero_add] at h
  unfold call
  cases maker.onCall k with
  | ok x =>
      apply Act.bind_meets.mpr
      apply (World.record_meets rfl rfl h).of_returns
      intro _ w' h'
      simp only [Act.bind_meets, Act.pure_meets]
      exact (World.receive_meets x h').of_returns fun _ _ hm => ⟨trivial, hm⟩
  | error message =>
      apply Act.bind_meets.mpr
      apply (World.record_meets rfl rfl h).of_returns
      intro _ w' h'
      exact ⟨⟨message, rfl, rfl⟩, ⟨message, rfl⟩, h'⟩

namespace Element

variable (E : Element σ α)

/-- Element code is run, and its event moves the assets that the event says. -/
theorem run_meets {β : Type} (code : σ → Except String β × σ) (event : Option β → Event α)
    (kept : Option β → Multiset (Asset α)) {w : World σ α}
    (h : ∀ result, w.Owns (kept result + (event result).losses)) :
    (run code event w).Meets
      ⟨fun b w' => CanYield code b ∧ w'.Owns (kept (some b) + (event (some b)).gains),
        fun _ _ => False,
        fun f w' => CanRaise code f ∧ w'.Owns (kept none + (event none).gains)⟩ := by
  simp only [run, Act.bind_meets, Act.get_meets, Act.modify_meets]
  cases hresult : (code w.code).1 with
  | ok b => exact ⟨⟨w.code, hresult⟩, (h (some b)).push _ rfl⟩
  | error message => exact ⟨⟨w.code, message, hresult, rfl⟩, (h none).push _ rfl⟩

/-- A clone is a new element, and the source stays. -/
theorem clone_produces (source : α) :
    Act.Produces 0 (CanYield (E.onClone source)) (CanRaise (E.onClone source))
      (E.clone source) := by
  intro w m h
  rw [zero_add] at h
  refine (run_meets (E.onClone source) _ (fun _ => m) ?_).imp ?_ (fun _ _ => id) ?_
  · intro result
    cases result <;> exact h.of_eq (by simp [Event.losses, Event.leaving])
  · intro made w' h'
    exact ⟨h'.1, h'.2.of_eq (by simp [Event.gains, Event.entering, add_comm])⟩
  · intro f w' h'
    exact ⟨h'.1, h'.1.isRaised, h'.2.of_eq (by simp [Event.gains, Event.entering])⟩

/-- The element is a clone of the `k`-th one of a list. -/
def ClonedFrom (ys : List α) (k : Nat) (x : α) : Prop :=
  ∃ y, ys[k]? = some y ∧ CanYield (E.onClone y) x

/-- The fault is raised by cloning the `k`-th one of a list. -/
def CloneFaults (ys : List α) (k : Nat) (f : Fault) : Prop :=
  ∃ y, ys[k]? = some y ∧ CanRaise (E.onClone y) f

/-- The clone of the `k`-th element is the `k`-th clone. -/
theorem clone_nth_produces {ys : List α} {k : Nat} {y : α} (hy : ys[k]? = some y) :
    Act.Produces 0 (E.ClonedFrom ys k) (E.CloneFaults ys k) (E.clone y) :=
  (E.clone_produces y).imp (fun _ hx => ⟨y, hy, hx⟩) (fun _ hf => ⟨y, hy, hf⟩)

/-- A default element is a new element. -/
theorem default_produces :
    Act.Produces 0 (CanYield E.onDefault) (CanRaise E.onDefault) E.default := by
  intro w m h
  rw [zero_add] at h
  refine (run_meets E.onDefault _ (fun _ => m) ?_).imp ?_ (fun _ _ => id) ?_
  · intro result
    cases result <;> exact h.of_eq (by simp [Event.losses, Event.leaving])
  · intro made w' h'
    exact ⟨h'.1, h'.2.of_eq (by simp [Event.gains, Event.entering, add_comm])⟩
  · intro f w' h'
    exact ⟨h'.1, h'.1.isRaised, h'.2.of_eq (by simp [Event.gains, Event.entering])⟩

/-- An overwritten element leaves, and the one that it becomes enters; a fault leaves one element as well. -/
theorem overwrite_meets (old source : α) {w : World σ α} {m : Multiset (Asset α)}
    (h : w.Owns ({.element old} + m)) :
    (E.overwrite source (old, w)).Meets
      ⟨fun _ u => CanYield (E.onOverwrite old source) u.1 ∧ u.2.Owns ({.element u.1} + m),
        fun _ _ => False,
        fun f u => CanRaise (E.onOverwrite old source) f ∧ u.1 = E.remains old source w.code ∧
          u.2.Owns ({.element u.1} + m)⟩ := by
  simp only [overwrite, makeOver, Act.bind_meets, Act.held_meets, Act.inWorld_meets, Act.get_meets, Act.pure_meets,
    Act.onFault_meets, Act.hold_meets]
  refine (run_meets (E.onOverwrite old source) _ (fun _ => m) ?_).imp ?_ (fun _ _ => id) ?_
  · intro result
    cases result <;> exact h.of_eq (by simp [Event.losses, Event.leaving, add_comm])
  · intro made w' h'
    exact ⟨h'.1, h'.2.of_eq (by simp [Event.gains, Event.entering, add_comm])⟩
  · intro f w' h'
    exact ⟨h'.1, rfl, h'.2.of_eq (by simp [Event.gains, Event.entering, add_comm])⟩

/-- A dropped element is gone, also when its drop faults, which it does not while unwinding. -/
theorem drop_meets (unwinding : Bool) (x : α) {w : World σ α} {m : Multiset (Asset α)}
    (h : w.Owns ({.element x} + m)) :
    (E.drop unwinding x w).Meets ⟨fun _ w' => w'.Owns m, fun _ _ => False,
      fun f w' => CanRaise (E.onDrop x) f ∧ unwinding = false ∧ w'.Owns m⟩ := by
  have hgone : ∀ (faulted : Bool) (w' : World σ α),
      w'.trace = w.trace.push (.dropped x faulted) → w'.Owns m := by
    intro faulted w' htrace
    have hlost : w.Owns (m + (Event.dropped x faulted).losses) :=
      h.of_eq (by simp [Event.losses, Event.leaving, add_comm])
    exact (hlost.push _ htrace).of_eq (by simp [Event.gains, Event.entering])
  simp only [drop, Act.bind_meets, Act.get_meets, Act.modify_meets]
  cases unwinding with
  | true => exact hgone false _ rfl
  | false =>
      cases hresult : (E.onDrop x w.code).1 with
      | ok _ => exact hgone false _ rfl
      | error message => exact ⟨⟨w.code, message, hresult, rfl⟩, rfl, hgone true _ rfl⟩

/-- All elements are dropped, even if some drops fault. -/
theorem dropAll_meets (unwinding : Bool) (xs : List α) {w : World σ α} {m : Multiset (Asset α)}
    (h : w.Owns (Asset.elements xs + m)) :
    (E.dropAll unwinding xs w).Meets ⟨fun _ w' => w'.Owns m, fun _ _ => False,
      fun f w' => (∃ x ∈ xs, CanRaise (E.onDrop x) f) ∧ unwinding = false ∧ w'.Owns m⟩ := by
  induction xs generalizing unwinding w with
  | nil => exact h.of_eq (by simp)
  | cons x xs ih =>
      simp only [dropAll, Act.ensuring_meets]
      refine (E.drop_meets unwinding x (m := Asset.elements xs + m)
        (h.of_eq (by rw [Asset.elements_cons, add_assoc]))).imp ?_ (fun _ _ => False.elim) ?_
      · intro _ w' h'
        refine (ih (unwinding || false) h').imp (fun _ _ => id) (fun _ _ => id) ?_
        intro f w'' hf
        obtain ⟨⟨y, hy, hraise⟩, hquiet, h''⟩ := hf
        exact ⟨⟨y, List.mem_cons_of_mem x hy, hraise⟩, by simpa using hquiet, h''⟩
      · intro f w' hf
        -- The rest is dropped while unwinding, and hence cannot fault a second time.
        obtain ⟨hraise, hquiet, h'⟩ := hf
        have hfirst : ∃ y ∈ x :: xs, CanRaise (E.onDrop y) f := ⟨x, List.mem_cons_self, hraise⟩
        exact (ih (unwinding || true) h').imp (fun _ _ hm => ⟨hfirst, hquiet, hm⟩)
          (fun _ _ => False.elim) (fun _ _ hm => ⟨hfirst, hquiet, hm.2.2⟩)

/-- Elements are dropped, and then their region is released, even if a drop faults. -/
theorem dropAll_release_meets {r : Region} (hr : r.Valid E.toShape) (allocator : Allocator)
    (unwinding : Bool) (xs : List α) {w : World σ α} {m : Multiset (Asset α)}
    (h : w.Owns (Asset.elements xs + (r.assets E.toShape + m))) :
    (((E.dropAll unwinding xs).ensuring fun _ => r.release E.toShape allocator) w).Meets
      ⟨fun _ w' => w'.Owns m, fun _ _ => False,
        fun f w' => f.Sanctioned E.toShape ∧ w'.Owns m ∧
          (E.toShape.Fits → (∃ x ∈ xs, CanRaise (E.onDrop x) f) ∧ unwinding = false)⟩ := by
  have hrelease : ∀ w' : World σ α, w'.Owns (r.assets E.toShape + m) →
      (r.release E.toShape allocator w').Meets ⟨fun _ w' => w'.Owns m, fun _ _ => False,
        fun f w' => f.Sanctioned E.toShape ∧ ¬ E.toShape.Fits ∧ w'.Owns m⟩ := by
    intro w' h'
    refine (Region.release_meets hr allocator w').imp ?_ (fun _ _ => id) ?_
    · exact fun _ _ hgone => (hgone m h').of_eq (zero_add m)
    · exact fun _ _ hgone => ⟨hgone.1, hgone.2.1, (hgone.2.2 m h').of_eq (zero_add m)⟩
  rw [Act.ensuring_meets]
  refine (E.dropAll_meets unwinding xs h).imp ?_ (fun _ _ => False.elim) ?_
  · intro _ w' h'
    exact (hrelease w' h').imp (fun _ _ => id) (fun _ _ => id)
      (fun _ _ hm => ⟨hm.1, hm.2.2, fun hfits => absurd hfits hm.2.1⟩)
  · intro f w' hf
    obtain ⟨⟨x, hx, hraise⟩, hquiet, h'⟩ := hf
    have hsanctioned := hraise.isRaised.sanctioned E.toShape
    exact (hrelease w' h').imp
      (fun _ _ hm => ⟨hsanctioned, hm, fun _ => ⟨⟨x, hx, hraise⟩, hquiet⟩⟩)
      (fun _ _ => False.elim)
      (fun _ _ hm => ⟨hsanctioned, hm.2.2, fun _ => ⟨⟨x, hx, hraise⟩, hquiet⟩⟩)

end Element

end Growable
