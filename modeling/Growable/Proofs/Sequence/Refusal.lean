import Growable.Proofs.Refusal
import Growable.Proofs.Sequence.Assignment
import Growable.Proofs.Sequence.Evolution

/-!
# Refused operations on sequences

A sequence stays as it was when an operation on it is refused; the laws of the operations say so.  What
consumes an iterator is refused in the middle of its work, and here it is said what it leaves: an insertion
takes out again what was put in until then, and keeps the slots (`insertFeed_refused`); an assignment
leaves what was assigned until then (`assignFeed_refused`).
-/

namespace Growable.Sequence

open Act

variable {σ α β : Type} {E : Element σ α} {s : Sequence α} {w : World σ α}
  {given m : Multiset (Asset α)}

/-! ## Operations that are never refused

Whatever works on the elements within their region asks for no memory, and so it cannot be refused. -/

theorem firm_store (x : α) : Firm (store x : SequenceAct σ α Unit) := by
  apply firm_held.bind
  intro s
  exact (firm_require _ _).bind fun _ => firm_hold _

theorem firm_inSlot (index : Nat) {act : Act (α × World σ α) β} (hact : Firm act) :
    Firm (inSlot index act) :=
  fun u => inSlot_meets.mpr ⟨fun x _ => hact (x, u.2), fun _ => trivial⟩

theorem firm_settle (items : List α) : Firm (settle items : SequenceAct σ α Unit) :=
  firm_held.bind fun _ => firm_hold _

/-- A rotation is never refused, as a position out of bounds is a broken check. -/
theorem firm_rotate (position middle : Nat) :
    Firm (rotate position middle : SequenceAct σ α Unit) := by
  apply firm_held.bind
  intro s
  exact (firm_require _ _).bind fun _ => firm_hold _

theorem firm_pop : Firm (pop : SequenceAct σ α (Option α)) := by
  apply firm_held.bind
  intro s
  cases s.items.getLast? with
  | none => exact firm_pure _
  | some x =>
      apply (firm_hold _).bind
      intro _
      exact (firm_record _).inWorld.bind fun _ => firm_pure _

theorem firm_truncate (n : Nat) : Firm (truncate E n) := by
  apply firm_held.bind
  intro s
  apply (firm_pure _).ite
  exact (firm_hold _).bind fun _ => (E.firm_dropAll _ _).inWorld

theorem firm_dispose (unwinding : Bool) (s : Sequence α) : Firm (s.dispose E unwinding) :=
  (E.firm_dropAll _ _).ensuring fun _ => Region.firm_release _ _ _

theorem firm_supplant (k : Nat) (x : α) : Firm (supplant E k x) := by
  apply firm_held.bind
  intro s
  apply (firm_ofOption _ _).bind
  intro old
  exact (firm_hold _).bind fun _ => (E.firm_drop _ _).inWorld

/-- An opening is filled without a refusal if what fills it is made without one. -/
theorem firm_fillBetween {make : Nat → Act (World σ α) α} {front back : List α}
    (hmake : ∀ k, Firm (make k)) (count : Nat) (filled : List α) :
    Firm (fillBetween make front back count filled) := by
  induction count generalizing filled with
  | zero => exact firm_settle _
  | succ count ih => exact (hmake filled.length).inWorld.onFault.bind fun x => ih (filled ++ [x])

theorem firm_makeTail {make : Nat → Act (World σ α) α} (hmake : ∀ k, Firm (make k))
    (capacity len k count : Nat) (made : List α) :
    Firm (makeTail E make capacity len k count made) := by
  induction count generalizing k made with
  | zero => exact firm_pure _
  | succ count ih =>
      apply Firm.bind _ fun x => ih (k + 1) (made ++ [x])
      apply Firm.onFault
      apply (hmake k).bind
      intro x
      exact (firm_require _ _).bind fun _ => firm_pure _

section Source

variable {source : Nat → Act (World σ α) α} (hsource : ∀ k, Firm (source k))

include hsource

/-- Cloning over elements is never refused. -/
theorem firm_overwriteFrom (k count : Nat) : Firm (overwriteFrom E source k count) := by
  induction count generalizing k with
  | zero => exact firm_pure _
  | succ count ih =>
      apply (hsource k).inWorld.bind
      intro x
      exact (firm_inSlot k (E.firm_overwrite x)).bind fun _ => ih (k + 1)

theorem firm_storeFrom (count : Nat) : Firm (storeFrom E source count) := by
  induction count with
  | zero => exact firm_pure _
  | succ count ih =>
      apply firm_held.bind
      intro s
      apply ((hsource s.len).bind fun x => E.firm_clone x).inWorld.bind
      intro x
      exact (firm_store x).bind fun _ => ih

end Source

/-! ## Room -/

/-- The capacity is that of the new block. -/
theorem install_room (region : Region) (items : List α) (s : Sequence α) (w : World σ α) :
    (install E region items (s, w)).Meets (.always fun u => u.1.capacity = region.capacity) := by
  simp only [install, bind_meets, held_meets, hold_meets, inWorld_meets]
  exact (keeps_const True _ w trivial).always_imp fun _ _ => rfl

/-- A push that grows has at least the capacity from before, however it ends. -/
theorem pushGrown_room {P : α → Prop} {F : Fault → Prop} {make : Act (World σ α) α}
    (hs : Sound E (given + m) (s, w)) (hmake : Act.Produces given P F make)
    (hfull : s.len = s.capacity) :
    (pushGrown E make (s, w)).Meets (.always fun u => s.capacity ≤ u.1.capacity) := by
  have hsame := Nat.le_refl s.capacity
  rw [pushGrown_eq]
  simp only [bind_meets, held_meets, ofExcept_meets, inWorld_meets]
  refine ⟨fun n hn => ⟨fun capacity hgrow => ?_, fun _ _ => hsame⟩, fun _ _ => hsame⟩
  have hlen := required_eq_ok hn
  have hle := (Capacity.grow_bounds hgrow).1
  apply (World.note_meets _ hs.owns).of_returns
  intro _ w₁ h₁
  have hroom : s.items.length + 1 + ([] : List α).length ≤ capacity := hlen ▸ hle
  apply (Staging.assemble_meets s.handle.allocator (Staging.append_constructs hmake) hroom
    (h₁.of_eq (add_left_comm _ _ _))).imp
  · intro r w₂ hr
    have hgrown : s.capacity ≤ r.1.capacity := by
      rw [hr.2.1]
      omega
    exact (install_room r.1 r.2 s w₂).always_imp fun _ hu => hgrown.trans hu.ge
  · exact fun _ _ _ => hsame
  · exact fun _ _ _ => hsame

/-- There are never fewer slots after a push than before. -/
theorem push_room (x : α) (hs : Sound E m (s, w)) :
    (push E x (s, w)).Meets (.always fun u => s.capacity ≤ u.1.capacity) := by
  have hsame := Nat.le_refl s.capacity
  simp only [push, bind_meets, inWorld_meets]
  apply (World.receive_meets x hs.owns).of_returns
  intro _ w₁ h₁
  have hs₁ : Sound E ({.element x} + m) (s, w₁) :=
    ⟨hs.valid, h₁.of_eq (add_left_comm _ _ _)⟩
  have hpushed : (pushBy E (pure x) (s, w₁)).Meets (.always fun u => s.capacity ≤ u.1.capacity) := by
    simp only [pushBy, bind_meets, held_meets, ite_meets, inWorld_meets, pure_meets]
    refine ⟨fun hfull => pushGrown_room hs₁ (produces_pure x) hfull, fun _ => ?_⟩
    simp only [store, bind_meets, held_meets, require_meets, hold_meets]
    exact ⟨fun _ => hsame, fun _ => hsame⟩
  have hdropped : Keeps (fun u : Sequence α × World σ α => s.capacity ≤ u.1.capacity)
      (inWorld (E.drop false x)) :=
    Keeps.inWorld fun t => keeps_const (s.capacity ≤ t.capacity) _
  apply onRefusal_meets.mpr
  exact hpushed.imp (fun _ _ => id) (fun _ u hu => hdropped u hu) (fun _ _ => id)

/-! ## Iterators -/

/-- What is left when a member of an iterator was refused, while they were being put behind the elements
`made`: the members before that one are there, and perhaps elements that were there before. -/
structure Interrupted (E : Element σ α) (m : Multiset (Asset α)) (s : Sequence α) (w : World σ α)
    (made : List α) (feed : Feed α) (u : Sequence α × World σ α) : Prop where
  sound : Sound E m u
  handle : u.1.handle = s.handle
  room : s.capacity ≤ u.1.capacity
  items : ∃ n, feed.Interrupted n w u.2 ∧ u.1.items = made ++ feed.members.take n

/-- A member that is stored comes before the refused one. -/
theorem Interrupted.yield {t : Sequence α} {w' : World σ α} {made : List α} {x : α} {rest : Feed α}
    {u : Sequence α × World σ α} (h : Interrupted E m t w' (made ++ [x]) rest u)
    (hhandle : t.handle = s.handle) (hroom : s.capacity ≤ t.capacity)
    (hyields : w'.yields = w.yields + 1) : Interrupted E m s w made (.yield x rest) u := by
  obtain ⟨n, hn, hitems⟩ := h.items
  refine ⟨h.sound, h.handle.trans hhandle, hroom.trans h.room, n + 1, hn.yield x hyields, ?_⟩
  rw [hitems, List.append_assoc]
  rfl

/-- The first member is refused. -/
theorem interrupted_first {u : Sequence α × World σ α} {made : List α} (x : α) (rest : Feed α)
    (hu : Sound E m u) (hsame : u.1 = s) (hitems : s.items = made)
    (hyields : u.2.yields = w.yields + 1) : Interrupted E m s w made (.yield x rest) u := by
  subst hsame
  exact ⟨hu, rfl, Nat.le_refl _, 0, Feed.interrupted_zero x rest hyields,
    hitems.trans (List.append_nil made).symm⟩

/-- A member that is pushed leaves the trace as far as iterators are concerned. -/
theorem push_quiet (x : α) (s : Sequence α) (w : World σ α) :
    (push E x (s, w)).Meets
      (.always (Under s.handle (fun _ => True) (fun e => e.isYield = false) w)) :=
  keeps_push Event.isYield_of_upkeep s.handle.maxBytes_le (fun _ _ => trivial) x (s, w)
    ⟨⟨rfl, trivial⟩, .refl w⟩

/-- A refusal leaves the items appended before it, and no item is asked for after it. -/
theorem pushFeed_refused (feed : Feed α) (hs : Sound E m (s, w)) :
    (pushFeed E feed (s, w)).Meets (.refusing fun _ u => Interrupted E m s w s.items feed u) := by
  induction feed generalizing s w with
  | finish => trivial
  | raise message => trivial
  | yield x rest ih =>
      simp only [pushFeed, bind_meets, inWorld_meets]
      apply (World.record_yielded_meets hs.owns).of_returns
      intro _ w₁ hw₁
      have hs₁ : Sound E m (s, w₁) := ⟨hs.valid, hw₁.1⟩
      apply (((push_meets x hs₁).and (push_room x hs₁)).and (push_quiet x s w₁)).imp
      · rintro _ ⟨t, w₂⟩ hu
        obtain ⟨⟨⟨ht, hhandle, hitems⟩, hroom⟩, _, hquiet⟩ := hu
        apply (ih ht).refusing
        intro e u hu
        rw [hitems] at hu
        exact hu.yield hhandle hroom (hquiet.yields_eq.trans hw₁.2)
      · intro e u hu
        obtain ⟨⟨⟨ht, _, hsame⟩, _⟩, _, hquiet⟩ := hu
        exact interrupted_first x rest ht hsame rfl (hquiet.yields_eq.trans hw₁.2)
      · exact fun _ _ _ => trivial

/-- What was inserted until a member was refused is taken out again. -/
theorem insertFeed_refused (position : Nat) (feed : Feed α) (hs : Sound E m (s, w)) :
    (insertFeed E position feed (s, w)).Meets (.refusing fun _ u =>
      u.1.items = s.items ∧ u.1.handle = s.handle ∧ s.capacity ≤ u.1.capacity) := by
  apply bind_meets.mpr
  apply held_meets.mpr
  apply bind_meets.mpr
  apply ofExcept_meets.mpr
  refine ⟨fun _ _ => ?_, fun _ _ => ⟨rfl, rfl, Nat.le_refl _⟩⟩
  apply onRefusal_bind_refusing (pushFeed_refused feed hs)
  · rintro e ⟨t, w'⟩ hu
    obtain ⟨n, _, hitems⟩ := hu.items
    simp only [bind_meets, held_meets, inWorld_meets]
    apply (World.note_meets _ hu.sound.owns).of_returns
    intro _ w'' hw''
    have ht : Sound E m (t, w'') := ⟨hu.sound.valid, hw''⟩
    apply (truncate_meets s.len ht).imp
    · rintro _ ⟨v, w₃⟩ ⟨_, rfl⟩
      have hback : t.items.take s.len = s.items := by rw [hitems, len, List.take_left]
      exact ⟨hback, hu.handle, hu.room⟩
    · exact fun _ _ hv => hv.2
    · exact fun _ _ _ => trivial
  · exact fun _ => firm_rotate position s.len

/-- A refusal leaves the items assigned before it, and no item is asked for after it. -/
theorem supplantFrom_refused {olds made : List α} (feed : Feed α) (hs : Sound E m (s, w))
    (hitems : s.items = made ++ olds.drop made.length) :
    (supplantFrom E olds.length made.length feed (s, w)).Meets
      (.refusing fun _ u => Interrupted E m s w made feed u) := by
  induction feed generalizing s w made with
  | finish =>
      simp only [supplantFrom, bind_meets, inWorld_meets]
      apply (World.record_meets rfl rfl hs.owns).of_returns
      intro _ w' h'
      have hs' : Sound E m (s, w') := ⟨hs.valid, h'⟩
      simp only [ite_meets, pure_meets]
      exact ⟨fun _ => (truncate_meets made.length hs').refusing fun _ _ hu => hu.2.elim,
        fun _ => trivial⟩
  | raise message => trivial
  | yield x rest ih =>
      have hlength : (made ++ [x]).length = made.length + 1 := by simp
      simp only [supplantFrom, bind_meets, inWorld_meets]
      apply (World.record_yielded_meets hs.owns).of_returns
      intro _ w₁ hw₁
      have hs₁ : Sound E m (s, w₁) := ⟨hs.valid, hw₁.1⟩
      simp only [bind_meets, ite_meets, inWorld_meets]
      -- Only where no old elements are left, memory is asked for, and a member can be refused.
      constructor
      · intro hlt
        rw [List.drop_eq_getElem_cons hlt] at hitems
        have hQ := Event.chore_of_upkeep (@Event.isYield_of_upkeep α 0 0)
        apply ((World.receive_meets x hs₁.owns).and (World.keeps_receive hQ x w₁ (.refl w₁))).imp
        · intro _ w₂ hw₂
          have hkept := keeps_supplant (E := E) (P := fun _ => True) hQ made.length x (s, w₂)
            ⟨⟨rfl, trivial⟩, hw₂.2⟩
          apply ((supplant_meets hs.valid hitems hw₂.1).and hkept).imp
          · rintro _ ⟨t, w₃⟩ ⟨⟨ht, rfl⟩, _, hquiet⟩
            have hnext := ih ht (by rw [hlength, List.append_assoc, List.singleton_append])
            rw [hlength] at hnext
            apply hnext.refusing
            exact fun e u hu => hu.yield rfl (Nat.le_refl _) (hquiet.yields_eq.trans hw₁.2)
          · exact fun _ _ hu => hu.1.2.elim
          · exact fun _ _ _ => trivial
        · exact fun _ _ hu => hu.1.elim
        · exact fun _ _ _ => trivial
      · intro hover
        have hnil : ∀ k, made.length ≤ k → olds.drop k = [] := fun k hk =>
          List.drop_eq_nil_of_le (by omega)
        rw [hnil _ (Nat.le_refl _), List.append_nil] at hitems
        apply (((push_meets x hs₁).and (push_room x hs₁)).and (push_quiet x s w₁)).imp
        · rintro _ ⟨t, w₂⟩ hu
          obtain ⟨⟨⟨ht, hhandle, hpushed⟩, hroom⟩, _, hquiet⟩ := hu
          have hstored : t.items = made ++ [x] ++ olds.drop (made ++ [x]).length := by
            rw [hpushed, hitems, hlength, hnil _ (Nat.le_succ _), List.append_nil]
          have hnext := ih ht hstored
          rw [hlength] at hnext
          apply hnext.refusing
          intro e u hu
          exact hu.yield hhandle hroom (hquiet.yields_eq.trans hw₁.2)
        · intro e u hu
          obtain ⟨⟨⟨ht, _, hsame⟩, _⟩, _, hquiet⟩ := hu
          exact interrupted_first x rest ht hsame hitems (hquiet.yields_eq.trans hw₁.2)
        · exact fun _ _ _ => trivial

/-- What was assigned until a member was refused stays. -/
theorem assignFeed_refused (feed : Feed α) (hs : Sound E m (s, w)) :
    (assignFeed E feed (s, w)).Meets (.refusing fun _ u => u.1.handle = s.handle ∧
      ∃ n, feed.Interrupted n w u.2 ∧ u.1.items = feed.members.take n) := by
  have hitems : s.items = [] ++ s.items.drop ([] : List α).length := rfl
  apply bind_meets.mpr
  apply held_meets.mpr
  apply (supplantFrom_refused feed hs hitems).refusing
  exact fun _ _ hu => ⟨hu.handle, hu.items⟩

end Growable.Sequence
