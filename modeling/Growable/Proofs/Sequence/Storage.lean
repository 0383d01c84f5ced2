import Growable.Proofs.Custody.Staging
import Growable.Sequence.Storage

/-!
# What the storage of a sequence does

A sequence answers for its elements and for its region.  It is `Valid` when its region can be released
and has room for the elements; it is `Sound` in a world when, moreover, its assets are in custody there,
beside whatever else is.  Every operation keeps a sequence sound, however it ends; `Sequence.soundly`
claims this beside what the operation does to the contents, so that each operation has one law.

* `reserve_meets`, `reserveMore_meets`, `shrink_meets` — the contents stay, also when the new storage is
  refused;
* `dispose_meets` — nothing of a sequence is left in custody once it is disposed of.
-/

namespace Growable.Sequence

variable {σ α β : Type} (E : Element σ α)

/-- What a sequence answers for. -/
def assets (s : Sequence α) : Multiset (Asset α) :=
  Asset.elements s.items + s.region.assets E.toShape

/-- The region can be released, and has room for the elements. -/
structure Valid (s : Sequence α) : Prop where
  region : s.region.Valid E.toShape
  len_le : s.len ≤ s.capacity

/-- A valid sequence whose assets are in custody, beside the assets `m`. -/
structure Sound (m : Multiset (Asset α)) (u : Sequence α × World σ α) : Prop where
  valid : u.1.Valid E
  owns : u.2.Owns (u.1.assets E + m)

/-- The claim that the sequence is sound in the end and no check of the storage failed, beside what is
claimed of the sequence itself; of a fault this is claimed only if the elements have a possible
layout. -/
def soundly (m : Multiset (Asset α)) (post : Post (Sequence α) β) : Post (Sequence α × World σ α) β :=
  ⟨fun b u => Sound E m u ∧ post.done b u.1, fun e u => Sound E m u ∧ post.refused e u.1,
    fun f u => f.Sanctioned E.toShape ∧ Sound E m u ∧ (E.toShape.Fits → post.faulted f u.1)⟩

/-- The same claim of an operation that is given some assets: if it is refused, they are left. -/
def soundlyGiven (given m : Multiset (Asset α)) (post : Post (Sequence α) β) :
    Post (Sequence α × World σ α) β :=
  ⟨fun b u => Sound E m u ∧ post.done b u.1, fun e u => Sound E (given + m) u ∧ post.refused e u.1,
    fun f u => f.Sanctioned E.toShape ∧ Sound E m u ∧ (E.toShape.Fits → post.faulted f u.1)⟩

theorem soundlyGiven_zero (m : Multiset (Asset α)) (post : Post (Sequence α) β) :
    (soundlyGiven E 0 m post : Post (Sequence α × World σ α) β) = soundly E m post := by
  rw [soundlyGiven, soundly, zero_add]

/-- Custody without an argument is custody. -/
theorem Sound.given_zero {u : Sequence α × World σ α} (hs : Sound E m u) : Sound E (0 + m) u :=
  ⟨hs.valid, hs.owns.of_eq (by rw [zero_add])⟩

/-- An empty sequence is valid. -/
theorem valid_empty (handle : Handle) : (empty handle : Sequence α).Valid E :=
  ⟨Region.valid_empty _, Nat.le_refl _⟩

@[simp] theorem assets_empty (handle : Handle) : (empty handle).assets E = 0 := rfl

variable {E} {s : Sequence α} {w : World σ α} {m : Multiset (Asset α)}

/-- What is claimed of the sequence may be weakened. -/
theorem soundly_imp {o : Outcome (Sequence α × World σ α) β} {post post' : Post (Sequence α) β}
    (h : o.Meets (soundly E m post)) (hdone : ∀ b t, post.done b t → post'.done b t)
    (hrefused : ∀ e t, post.refused e t → post'.refused e t)
    (hfaulted : ∀ f t, post.faulted f t → post'.faulted f t) : o.Meets (soundly E m post') :=
  h.imp (fun b u hu => ⟨hu.1, hdone b u.1 hu.2⟩) (fun e u hu => ⟨hu.1, hrefused e u.1 hu.2⟩)
    (fun f u hu => ⟨hu.1, hu.2.1, fun hfits => hfaulted f u.1 (hu.2.2 hfits)⟩)

/-- Whatever a postcondition in custody says, custody holds in every ending. -/
theorem sound_of_soundly {o : Outcome (Sequence α × World σ α) β} {post : Post (Sequence α) β}
    (h : o.Meets (soundly E m post)) : o.Meets (.always (Sound E m)) :=
  h.imp (fun _ _ hu => hu.1) (fun _ _ hu => hu.1) (fun _ _ hu => hu.2.1)

/-- Other elements in the same region, as many at most, in the place of the old ones. -/
theorem Sound.with_items {items : List α} {w' : World σ α} (hs : s.region.Valid E.toShape)
    (hlen : items.length ≤ s.capacity)
    (h : w'.Owns (Asset.elements items + (s.region.assets E.toShape + m))) :
    Sound E m ({ s with items }, w') :=
  ⟨⟨hs, hlen⟩, h.of_eq (by rw [assets, add_assoc])⟩

/-- The assets of a sound sequence, taken apart. -/
theorem Sound.owns_parts (hs : Sound E m (s, w)) :
    w.Owns (Asset.elements s.items + (s.region.assets E.toShape + m)) :=
  hs.owns.of_eq (by rw [assets, add_assoc])

/-! ## New contents -/

/-- A new block with its elements takes the place of the old one, which goes back. -/
theorem install_meets {region : Region} {items : List α} (hs : s.region.Valid E.toShape)
    (hregion : region.Valid E.toShape) (hlen : items.length ≤ region.capacity)
    (h : w.Owns (Asset.elements items + region.assets E.toShape +
      (s.region.assets E.toShape + m))) :
    (install E region items (s, w)).Meets (soundly E m
      ⟨fun _ t => t = { s with region, items }, fun _ _ => False, fun _ _ => False⟩) := by
  have hnew : ∀ w' : World σ α, w.Becomes (s.region.assets E.toShape) w' 0 →
      Sound E m ({ s with region, items }, w') := by
    intro w' hgone
    refine ⟨⟨hregion, hlen⟩, ?_⟩
    have := hgone (Asset.elements items + region.assets E.toShape + m) (h.of_eq (by abel))
    exact this.of_eq (by rw [zero_add]; rfl)
  simp only [install, Act.bind_meets, Act.held_meets, Act.hold_meets, Act.inWorld_meets]
  refine (Region.release_meets hs s.handle.allocator w).imp ?_ (fun _ _ => False.elim) ?_
  · exact fun _ w' hgone => ⟨hnew w' hgone, rfl⟩
  · exact fun f w' hgone => ⟨hgone.1, hnew w' hgone.2.2, fun hfits => hgone.2.1 hfits⟩

/-- Everything that a sequence answers for is gone once it is disposed of. -/
theorem dispose_meets (hs : s.Valid E) (unwinding : Bool) (h : w.Owns (s.assets E + m)) :
    (s.dispose E unwinding w).Meets ⟨fun _ w' => w'.Owns m, fun _ _ => False,
      fun f w' => f.Sanctioned E.toShape ∧ w'.Owns m ∧
        (E.toShape.Fits → (∃ x ∈ s.items, CanRaise (E.onDrop x) f) ∧ unwinding = false)⟩ :=
  E.dropAll_release_meets hs.region s.handle.allocator unwinding s.items
    (h.of_eq (by rw [assets, add_assoc]))

/-- The new contents are there, also when a drop of the old ones faults. -/
theorem replace_meets {region : Region} {items : List α} (hs : s.Valid E)
    (hregion : region.Valid E.toShape) (hlen : items.length ≤ region.capacity)
    (h : w.Owns (Asset.elements items + region.assets E.toShape + (s.assets E + m))) :
    (replace E region items (s, w)).Meets (soundly E m
      ⟨fun _ t => t = { s with region, items }, fun _ _ => False,
        fun f t => t = { s with region, items } ∧ ∃ x ∈ s.items, CanRaise (E.onDrop x) f⟩) := by
  have hnew : ∀ w' : World σ α,
      w'.Owns (Asset.elements items + region.assets E.toShape + m) →
      Sound E m ({ s with region, items }, w') := fun w' h' => ⟨⟨hregion, hlen⟩, h'⟩
  simp only [replace, Act.bind_meets, Act.held_meets, Act.hold_meets, Act.inWorld_meets]
  refine (dispose_meets hs false (m := Asset.elements items + region.assets E.toShape + m)
    (h.of_eq (by abel))).imp ?_ (fun _ _ => False.elim) ?_
  · exact fun _ w' h' => ⟨hnew w' h', rfl⟩
  · exact fun f w' h' => ⟨h'.1, hnew w' h'.2.1, fun hfits => ⟨rfl, (h'.2.2 hfits).1⟩⟩

/-! ## New storage for the old contents -/

/-- The claim that a sequence has the contents of `s` and a capacity that satisfies `room`; if it was
refused, it is `s`. -/
def resized (s : Sequence α) (room : Nat → Prop) : Post (Sequence α) Unit :=
  ⟨fun _ t => t.items = s.items ∧ t.handle = s.handle ∧ room t.capacity,
    fun e t => e.IsLack ∧ t = s, fun _ _ => False⟩

/-- The elements move to a block of the capacity asked for, or all stays as it was. -/
theorem reallocate_meets {capacity : Nat} (hs : Sound E m (s, w)) (hcapacity : s.len ≤ capacity) :
    (reallocate E capacity (s, w)).Meets (soundly E m (resized s (· = capacity))) := by
  simp only [reallocate, Act.bind_meets, Act.held_meets, Act.require_meets, Act.inWorld_meets]
  refine ⟨fun _ => ?_, fun hfull => absurd hcapacity hfull⟩
  apply (World.note_meets _ hs.owns_parts).of_returns
  intro _ w₁ h₁
  apply (Staging.allocate_meets s.handle.allocator capacity w₁).imp _ _ (fun _ _ => False.elim)
  · intro st w₂ hst
    obtain ⟨hst, hstart, hnone, hroom, hgranted⟩ := hst
    have hlen : s.items.length ≤ capacity := hcapacity
    have hfits : s.items.length ≤ st.region.capacity - st.stop := by
      simpa [Staging.stop, hstart, hnone, hroom] using hlen
    simp only [Staging.moveAfter_meets, Staging.adopt_meets, hstart]
    refine ⟨fun _ => ⟨fun _ => ?_, by simp⟩, fun hfull => absurd hfits hfull⟩
    have hinstall := hgranted (Asset.elements s.items + (s.region.assets E.toShape + m))
      (h₁.of_eq (zero_add _).symm)
    have hitems : st.elements ++ s.items = s.items := by rw [hnone, List.nil_append]
    refine soundly_imp (install_meets hs.valid.region hst.region (by rwa [hitems, hroom]) ?_) ?_
      (fun _ _ => False.elim) (fun _ _ => False.elim)
    · apply hinstall.of_eq
      rw [hitems, Staging.assets, hnone, Asset.elements_nil]
      abel
    · intro _ t ht
      subst ht
      exact ⟨hitems, rfl, hroom⟩
  · intro e w₂ hrefused
    have hsame := hrefused.2 _ (h₁.of_eq (zero_add _).symm)
    exact ⟨Sound.with_items hs.valid.region hs.valid.len_le (hsame.of_eq (zero_add _)), hrefused.1, rfl⟩

/-- A reservation leaves at least the capacity asked for, or all stays as it was. -/
theorem reserve_meets (capacity : Nat) (hs : Sound E m (s, w)) :
    (reserve E capacity (s, w)).Meets (soundly E m (resized s (capacity ≤ ·))) := by
  simp only [reserve, Act.bind_meets, Act.held_meets, Act.ite_meets, Act.pure_meets,
    Act.ofExcept_meets]
  refine ⟨fun hle => ⟨hs, rfl, rfl, hle⟩, fun hmore => ⟨fun _ _ => ?_, fun e he => ?_⟩⟩
  · have hlen : s.len ≤ s.capacity := hs.valid.len_le
    refine soundly_imp (reallocate_meets hs (by omega)) ?_ (fun _ _ => id) (fun _ _ => id)
    exact fun _ t ht => ⟨ht.1, ht.2.1, ht.2.2.ge⟩
  · exact ⟨hs, Capacity.eq_of_check_eq_error he ▸ trivial, rfl⟩

/-- A reservation for more leaves room for as many, or all stays as it was. -/
theorem reserveMore_meets (additional : Nat) (hs : Sound E m (s, w)) :
    (reserveMore E additional (s, w)).Meets
      (soundly E m (resized s (s.len + additional ≤ ·))) := by
  simp only [reserveMore, Act.bind_meets, Act.held_meets, Act.ite_meets, Act.pure_meets,
    Act.ofExcept_meets]
  refine ⟨fun n hn => ?_, fun e he => ⟨hs, required_eq_error he ▸ trivial, rfl⟩⟩
  have hlen := required_eq_ok hn
  refine ⟨fun hle => ⟨hs, rfl, rfl, hlen ▸ hle⟩, fun _ => ⟨fun capacity hgrow => ?_, ?_⟩⟩
  · have hle := (Capacity.grow_bounds hgrow).1
    refine soundly_imp (reallocate_meets hs (by omega)) ?_ (fun _ _ => id) (fun _ _ => id)
    exact fun _ t ht => ⟨ht.1, ht.2.1, ht.2.2 ▸ hlen ▸ hle⟩
  · exact fun e he => ⟨hs, Capacity.eq_of_grow_eq_error he ▸ trivial, rfl⟩

/-- Shrinking leaves no slot free, or all stays as it was. -/
theorem shrink_meets (hs : Sound E m (s, w)) :
    (shrink E (s, w)).Meets (soundly E m (resized s (· = s.len))) := by
  simp only [shrink, Act.bind_meets, Act.held_meets, Act.ite_meets, Act.pure_meets,
    Act.hold_meets, Act.inWorld_meets]
  refine ⟨fun hfull => ⟨hs, rfl, rfl, hfull⟩,
    fun _ => ⟨fun hzero => ?_, fun _ => reallocate_meets hs (Nat.le_refl _)⟩⟩
  have hnil : s.items = [] := List.eq_nil_of_length_eq_zero hzero
  have hnew : ∀ w' : World σ α, w.Becomes (s.region.assets E.toShape) w' 0 →
      Sound E m ({ s with region := .empty }, w') := by
    intro w' hgone
    refine ⟨⟨Region.valid_empty _, by simp [len, hnil]⟩, ?_⟩
    have := hgone m (hs.owns_parts.of_eq (by simp [hnil]))
    exact this.of_eq (by simp [assets, hnil])
  refine (Region.release_meets hs.valid.region s.handle.allocator w).imp ?_
    (fun _ _ => False.elim) ?_
  · exact fun _ w' hgone => ⟨hnew w' hgone, rfl, rfl, hzero.symm⟩
  · exact fun f w' hgone => ⟨hgone.1, hnew w' hgone.2.2, fun hfits => hgone.2.1 hfits⟩

end Growable.Sequence
