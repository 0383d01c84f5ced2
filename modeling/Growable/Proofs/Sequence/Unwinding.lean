import Growable.Proofs.Sequence.Assignment
import Growable.Proofs.Sequence.Evolution
import Growable.Proofs.Unwinding

/-!
# Constructions of a sequence that unwind

An operation that makes its elements beside the contents of a sequence, in a new region or in the free
slots, touches these contents only once all of the elements are made.  So when making one of them fails,
the sequence is as it was, and everything else is undone.

* `pushBy_reverting`, `insertBy_reverting`, `resizeMade_reverting` — in any case;
* `insertMade_reverting`, `assignMade_reverting` — if there is not enough room;
* `copyFrom_reverting` — if the handle of the other sequence comes along;
* `replicate_undoing`, `ofList_undoing`, `copy_undoing` — for new sequences.
-/

namespace Growable.Sequence

open Act

variable {σ α β : Type} {E : Element σ α} {s other : Sequence α} {w : World σ α}

/-! ## What no longer fails -/

/-- An act whose events are no failures is calm. -/
theorem calms_of_keeps {act : SequenceAct σ α β}
    (h : ∀ (handle : Handle) (w₀ : World σ α),
      Keeps (Under handle (fun _ => True) (fun e => e.isFailure = false) w₀) act) : Calms act := by
  rintro ⟨s, w⟩
  exact (h s.handle w (s, w) ⟨⟨rfl, trivial⟩, .refl w⟩).always_imp fun _ hu => hu.2.calm

/-- Putting a new block in place is calm. -/
theorem calms_install (region : Region) (items : List α) : Calms (install E region items) :=
  calms_of_keeps fun _ _ => keeps_install (Event.isFailure_of_returning _) trivial items

/-- Replacing elements and block is calm, as a faulting drop is no failure to construct. -/
theorem calms_replace (region : Region) (items : List α) : Calms (replace E region items) :=
  calms_of_keeps fun _ _ => keeps_replace (Event.isFailure_of_returning _) trivial items

/-- Removing elements from the end is calm. -/
theorem calms_truncate (n : Nat) : Calms (truncate E n) :=
  calms_of_keeps fun _ _ => keeps_truncate Event.isFailure_of_chore n

theorem calms_store (x : α) : Calms (store x : SequenceAct σ α Unit) :=
  calms_of_keeps fun _ _ => keeps_store x

/-- Giving a sequence up is calm. -/
theorem dispose_calm (unwinding : Bool) (s : Sequence α) (w : World σ α) :
    (s.dispose E unwinding w).Meets (.always w.Calm) :=
  World.calm_of_keeps (fun _ => keeps_dispose (Event.isFailure_of_returning _) unwinding rfl) w

/-! ## Insertion -/

/-- A push that grows leaves everything as it was if the element is not made. -/
theorem pushGrown_reverting {make : Act (World σ α) α} (hmake : Makes make) :
    (pushGrown E make (s, w)).Meets (.reverting s w) := by
  rw [pushGrown_eq]
  apply reverting_ofExcept
  intro required _
  apply reverting_ofExcept
  intro capacity _
  apply reverting_bind
  · exact reverting_inWorld (undoing_note _
      (Staging.assemble_undoing _ _ _ _ (Staging.fills_append hmake)))
  · exact fun r => calms_install r.1 r.2

/-- So does any push, as it makes the element before it stores it. -/
theorem pushBy_reverting {make : Act (World σ α) α} (hmake : Makes make) :
    (pushBy E make (s, w)).Meets (.reverting s w) := by
  apply bind_meets.mpr
  apply held_meets.mpr
  apply ite_meets.mpr
  refine ⟨fun _ => pushGrown_reverting hmake, fun _ => ?_⟩
  exact reverting_bind (reverting_inWorld (hmake.undoing w)) calms_store

theorem insertGrown_reverting {position : Nat} (hposition : position ≤ s.len) (count : Nat)
    {make : (Nat → Option α) → Nat → Act (World σ α) α} (hmake : ∀ former? k, Makes (make former? k)) :
    (insertGrown E position count make (s, w)).Meets (.reverting s w) := by
  rw [insertGrown_eq position count make hposition]
  apply reverting_ofExcept
  intro required _
  apply reverting_ofExcept
  intro capacity _
  apply reverting_bind
  · exact reverting_inWorld (undoing_note _
      (Staging.assemble_undoing _ _ _ _ (Staging.fills_extend (hmake _) count)))
  · intro r
    have hrequire : Calms (require (r.2.length = required) .length : SequenceAct σ α Unit) :=
      calms_of_keeps fun _ _ => keeps_require _ _
    exact hrequire.bind fun _ => calms_install r.1 r.2

/-- An insertion of one element leaves everything as it was, as the element is made before a slot is opened. -/
theorem insertBy_reverting (position : Nat) {make : Act (World σ α) α} (hmake : Makes make) :
    (insertBy E position make (s, w)).Meets (.reverting s w) := by
  rw [insertBy_eq]
  apply bind_meets.mpr
  apply held_meets.mpr
  apply reverting_ofExcept
  intro _ hposition
  apply ite_meets.mpr
  refine ⟨fun _ => insertGrown_reverting (le_of_checkPosition_eq_ok hposition) 1 fun _ _ => hmake,
    fun _ => ?_⟩
  have hrequire : Calms (require (s.len < s.capacity) .slot : SequenceAct σ α Unit) :=
    calms_of_keeps fun _ _ => keeps_require _ _
  exact reverting_bind (reverting_inWorld (hmake.undoing w)) fun _ => hrequire.bind fun _ => calms_hold _

/-- Where there is not enough room, nothing is shifted aside. -/
theorem insertMade_reverting (position : Nat) {count : Nat} (hgrown : s.capacity < s.len + count)
    {make : (Nat → Option α) → Nat → Act (World σ α) α} (hmake : ∀ former? k, Makes (make former? k)) :
    (insertMade E position count make (s, w)).Meets (.reverting s w) := by
  apply bind_meets.mpr
  apply held_meets.mpr
  apply reverting_ofExcept
  intro _ hposition
  apply ite_meets.mpr
  refine ⟨fun _ => World.Calm.refl w, fun _ => ?_⟩
  apply reverting_ofExcept
  intro required hrequired
  apply reverting_ofExcept
  intro _ _
  apply ite_meets.mpr
  rw [required_eq_ok hrequired]
  exact ⟨fun _ => insertGrown_reverting (le_of_checkPosition_eq_ok hposition) count hmake,
    fun hroom => absurd hgrown hroom⟩

theorem insertCopies_reverting (position : Nat) {count : Nat} (x : α)
    (hgrown : s.capacity < s.len + count) :
    (insertCopies E position count x (s, w)).Meets (.reverting s w) :=
  insertMade_reverting position hgrown fun _ _ => E.makes_clone x

theorem insertAll_reverting (position : Nat) {xs : List α}
    (hgrown : s.capacity < s.len + xs.length) :
    (insertAll E position xs (s, w)).Meets (.reverting s w) :=
  insertMade_reverting position hgrown fun _ _ => makes_ofOption_bind _ _ E.makes_clone

theorem insertOwn_reverting (position : Nat) {span : Span}
    (hgrown : ∀ start stop, span.within s.len = .ok (start, stop) →
      s.capacity < s.len + (stop - start)) :
    (insertOwn E position span (s, w)).Meets (.reverting s w) := by
  apply bind_meets.mpr
  apply held_meets.mpr
  apply reverting_ofExcept
  intro r hr
  exact insertMade_reverting position (hgrown r.1 r.2 hr) fun _ _ =>
    makes_ofOption_bind _ _ E.makes_clone

/-! ## Resizing -/

/-- The elements behind a sequence are dropped again when one of them cannot be made. -/
theorem makeTail_undoing {make : Nat → Act (World σ α) α} (hmake : ∀ k, Makes (make k))
    (capacity len k count : Nat) {made : List α} {w₀ : World σ α} (h : w₀.Made made w) :
    (makeTail E make capacity len k count made w).Meets (.undoing w₀) := by
  induction count generalizing k made w with
  | zero => exact h.calm
  | succ count ih =>
      -- Dropping what was made is calm by itself; with a failure before it, it undoes everything.
      have hcalm : ∀ w', w₀.Calm w' → (E.dropAll true made w').Meets (.always w₀.Calm) := by
        intro w' hw'
        have hdropped := World.calm_of_keeps (fun _ => E.keeps_dropAll
          Event.isFailure_of_chore true made) w'
        exact hdropped.always_imp fun _ => hw'.trans
      simp only [makeTail, bind_meets, onFault_meets, require_meets, pure_meets]
      apply (hmake k w).imp
      · intro x w' hx
        have hmore := h.append hx
        exact ⟨fun _ => ih (k + 1) hmore, fun _ => (hcalm w' hmore.calm).always_imp fun _ => .inl⟩
      · exact fun _ _ => False.elim
      · rintro f w' (hw' | ⟨hraised, hfailed⟩)
        · exact (hcalm w' (h.calm.trans hw')).always_imp fun _ => .inl
        · apply (E.dropAll_emits made w').of_returns
          exact fun _ _ hdropped => .inr ⟨hraised, (h.failed hfailed).undid hdropped⟩

/-- A resize leaves everything as it was if an element is not made, as new ones are counted in at the end. -/
theorem resizeMade_reverting (n : Nat) {make : Nat → Act (World σ α) α}
    (hmake : ∀ k, Makes (make k)) : (resizeMade E n make (s, w)).Meets (.reverting s w) := by
  rw [resizeMade_eq]
  apply bind_meets.mpr
  apply held_meets.mpr
  apply ite_meets.mpr
  refine ⟨fun _ => reverting_of_calms (calms_truncate n), fun _ => ?_⟩
  apply reverting_ofExcept
  intro _ _
  apply ite_meets.mpr
  constructor
  · intro _
    apply reverting_bind
    · exact reverting_inWorld (makeTail_undoing hmake _ _ 0 _ (.nil w))
    · exact fun _ => calms_hold _
  · intro _
    apply reverting_bind
    · exact reverting_inWorld
        (Staging.assemble_undoing _ _ _ _ (Staging.fills_extend hmake _) w)
    · exact fun r => calms_install r.1 r.2

/-- The element that is cloned goes last, whatever happened. -/
theorem resize_reverting (n : Nat) (x : α) : (resize E n x (s, w)).Meets (.reverting s w) := by
  apply bind_meets.mpr
  apply inWorld_meets.mpr
  apply (World.emits_record (.received x) w).of_returns
  intro _ w₁ hw₁
  have hreceived : w.Calm w₁ := hw₁.calm rfl
  have hdrop : ∀ (unwinding : Bool) (u : Sequence α × World σ α), w.Calm u.2 →
      (inWorld (E.drop unwinding x) u).Meets (.always fun u' => w.Calm u'.2) := by
    intro unwinding u hu
    have hcalms : Calms (inWorld (E.drop unwinding x) : SequenceAct σ α Unit) :=
      calms_inWorld fun _ => E.keeps_drop Event.isFailure_of_chore unwinding x
    exact (hcalms u).always_imp fun _ => hu.trans
  apply ensuring_meets.mpr
  apply (resizeMade_reverting n fun _ => E.makes_clone x).imp
  · intro _ u hu
    exact (hdrop false u (hreceived.trans hu)).imp (fun _ _ => id) (fun _ _ => id) (fun _ _ => .inl)
  · intro _ u hu
    exact (hdrop false u (hreceived.trans hu)).imp (fun _ _ => id) (fun _ _ => id) (fun _ _ => .inl)
  · rintro f ⟨t, w₂⟩ hu
    dsimp only
    rcases hu with hu | ⟨hraised, hsame, hundid⟩
    · exact (hdrop true (t, w₂) (hreceived.trans hu)).always_imp fun _ => .inl
    · apply inWorld_meets.mpr
      apply (E.drop_emits x w₂).of_returns
      exact fun _ _ hdropped => .inr ⟨hraised, hsame, hundid.taken hw₁ hdropped⟩

/-! ## Assignment -/

/-- Where there is not enough room, nothing is overwritten. -/
theorem assignMade_reverting {count : Nat} (hlen : s.len ≤ s.capacity) (hgrown : s.capacity < count)
    {source : Nat → Act (World σ α) α} (hsource : ∀ k, Makes (do E.clone (← source k))) :
    (assignMade E count source (s, w)).Meets (.reverting s w) := by
  rw [assignMade_eq]
  apply bind_meets.mpr
  apply held_meets.mpr
  apply ite_meets.mpr
  refine ⟨fun hshort => by omega, fun _ => ?_⟩
  apply reverting_ofExcept
  intro _ _
  apply ite_meets.mpr
  refine ⟨fun hroom => by omega, fun _ => ?_⟩
  apply reverting_bind
  · exact reverting_inWorld
      (Staging.assemble_undoing _ _ _ _ (Staging.fills_extend hsource count) w)
  · exact fun r => calms_replace r.1 r.2

theorem assignCopies_reverting {count : Nat} (x : α) (hlen : s.len ≤ s.capacity)
    (hgrown : s.capacity < count) : (assignCopies E count x (s, w)).Meets (.reverting s w) :=
  assignMade_reverting hlen hgrown fun _ => E.makes_clone x

theorem assignAll_reverting {xs : List α} (hlen : s.len ≤ s.capacity)
    (hgrown : s.capacity < xs.length) : (assignAll E xs (s, w)).Meets (.reverting s w) :=
  assignMade_reverting hlen hgrown fun _ => makes_ofOption_bind _ _ E.makes_clone

/-! ## New sequences -/

/-- A sequence whose contents are all new. -/
theorem assemble_sequence_undoing {make : Nat → Act (World σ α) α} (hmake : ∀ k, Makes (make k))
    (count : Nat) (handle : Handle) (w : World σ α) :
    ((do
      let r ← Staging.assemble E handle.allocator count [] [] (Staging.extend E make 0 count)
      return ⟨r.1, r.2, handle⟩ : Act (World σ α) (Sequence α)) w).Meets (.undoing w) :=
  bind_meets.mpr (Staging.assemble_undoing _ _ _ _ (Staging.fills_extend hmake count) w)

/-- A sequence of copies that is not made leaves nothing behind. -/
theorem replicate_undoing (count : Nat) (x : α) (handle : Handle) (w : World σ α) :
    (replicate E count x handle w).Meets (.undoing w) := by
  have hassemble := assemble_sequence_undoing (E := E) (fun _ => E.makes_clone x) count handle w
  rw [Staging.assemble_new] at hassemble
  simp only [bind_assoc] at hassemble
  simp only [replicate, bind_meets, ofExcept_meets]
  exact ⟨fun _ _ => by simpa only [bind_meets] using hassemble, fun _ _ => .refl w⟩

/-- A copy that is not made leaves nothing behind. -/
theorem copy_undoing (s : Sequence α) (w : World σ α) : (s.copy E w).Meets (.undoing w) := by
  have hassemble := assemble_sequence_undoing (E := E)
    (fun k => makes_ofOption_bind .source s.items[k]? E.makes_clone) s.len s.handle w
  rw [Staging.assemble_new] at hassemble
  simp only [bind_assoc] at hassemble
  exact hassemble

theorem copyDemanded_undoing (s : Sequence α) (w : World σ α) :
    (s.copyDemanded E w).Meets (.undoing w) := by
  have hcopy := copy_undoing (E := E) s w
  unfold copyDemanded
  cases hresult : s.copy E w with
  | done t w' => rwa [hresult] at hcopy
  | refused e w' =>
      rw [hresult] at hcopy
      exact .inl hcopy
  | faulted f w' => rwa [hresult] at hcopy

/-- A sequence without elements and without memory leaves nothing behind. -/
theorem dispose_empty_emits (handle : Handle) (w : World σ α) :
    ((empty handle : Sequence α).dispose E true w).Meets (.always fun w' => w.Emits [] w') :=
  ensuring_meets.mpr
    ((Region.release_emits (Region.valid_empty E.toShape) handle.allocator w).always_imp
      fun _ => id)

/-- A sequence that is built by an act that reverts leaves nothing behind. -/
theorem build_undoing {work : SequenceAct σ α β} (handle : Handle)
    (h : (work (empty handle, w)).Meets (.reverting (empty handle) w)) :
    (build E handle work w).Meets (.undoing w) := by
  apply owning_meets.mpr
  apply h.imp
  · exact fun _ _ => id
  · intro e u hu
    exact (dispose_calm false u.1 u.2).imp (fun _ _ => hu.trans) (fun _ _ => hu.trans)
      (fun _ _ hw => .inl (hu.trans hw))
  · rintro f ⟨t, w'⟩ (hu | ⟨hraised, hsame, hundid⟩)
    · exact (dispose_calm true t w').always_imp fun _ hw => .inl (hu.trans hw)
    · obtain rfl : t = empty handle := hsame
      exact (dispose_empty_emits handle w').always_imp fun _ hw =>
        .inr ⟨hraised, hundid.of_emits_nil hw⟩

/-- A sequence of clones that is not made leaves nothing behind. -/
theorem ofList_undoing (xs : List α) (handle : Handle) (w : World σ α) :
    (ofList E xs handle w).Meets (.undoing w) := by
  apply bind_meets.mpr
  apply build_undoing
  cases xs with
  | nil => exact World.Calm.refl w
  | cons x rest => exact assignAll_reverting (Nat.le_refl 0) (Nat.succ_pos rest.length)

/-- A copy with a foreign handle leaves everything as it was if it is not made. -/
theorem copyFrom_reverting (hforeign : s.handle.Foreign other.handle) :
    (copyFrom E other (s, w)).Meets (.reverting s w) := by
  apply bind_meets.mpr
  apply held_meets.mpr
  apply ite_meets.mpr
  simp only [Bool.and_eq_true, Bool.not_eq_true']
  refine ⟨fun _ => ?_, fun hown => absurd hforeign hown⟩
  apply reverting_bind
  · exact reverting_inWorld (copy_undoing other w)
  · intro copied
    apply (calms_hold copied).bind
    exact fun _ => calms_inWorld fun _ =>
      keeps_dispose (Event.isFailure_of_returning _) false (s := s) rfl

end Growable.Sequence
