import Growable.Proofs.Items
import Growable.Proofs.Sequence.Assignment
import Growable.Sequence.Drain
import Growable.Sequence.Reading

/-!
# What goes from one sequence to another, into one, and out of one

* `copyFrom_meets` — the contents become clones of another sequence's, which is left alone;
* `moveFrom_meets` — the contents of the other sequence change hands, and it is left without any;
* `read_meets` — a sequence of the items that are read, as far as all of them are valid;
* `Drain.dispose_meets` — nothing is left of a sequence that was taken apart.
-/

namespace Growable.Sequence

variable {σ α : Type} {E : Element σ α} {s other : Sequence α} {w : World σ α}
  {m : Multiset (Asset α)}

/-! ## Another sequence's contents -/

/-- A copy that succeeds has replacements of its elements, one that is refused has changed nothing. -/
theorem copyFrom_meets (hs : Sound E m (s, w)) :
    (copyFrom E other (s, w)).Meets (soundly E m
      ⟨fun _ t => t.handle = (if other.handle.propagates then other.handle else s.handle) ∧
          t.items.length = other.items.length ∧
          ∃ olds, Staging.Made (E.Replaced olds other.items) 0 t.items,
        fun e t => e.IsLack ∧ t = s,
        fun f _ => (∃ olds k, E.ReplaceFaults olds other.items k f) ∨
          ∃ x ∈ s.items, CanRaise (E.onDrop x) f⟩) := by
  simp only [copyFrom, Act.bind_meets, Act.held_meets, Act.ite_meets, Act.inWorld_meets,
    Act.hold_meets, Bool.and_eq_true, Bool.not_eq_true']
  constructor
  · intro hforeign
    apply (copy_meets (s := other) hs.owns).imp
    · intro t w' ht
      obtain ⟨ht, hhandle, _, hlen, hmade⟩ := ht
      have howns : w'.Owns (s.assets E + (t.assets E + m)) :=
        ht.owns.of_eq (add_left_comm _ _ _)
      have hcopied : t.handle = (if other.handle.propagates then other.handle else s.handle) ∧
          t.items.length = other.items.length ∧
          ∃ olds, Staging.Made (E.Replaced olds other.items) 0 t.items :=
        ⟨by rw [if_pos hforeign.1]; exact hhandle, hlen, [], hmade⟩
      refine (dispose_meets hs.valid false howns).imp ?_ (fun _ _ => False.elim) ?_
      · exact fun _ w'' h' => ⟨⟨ht.valid, h'⟩, hcopied⟩
      · exact fun f w'' h' => ⟨h'.1, ⟨ht.valid, h'.2.1⟩, fun hfits => .inr (h'.2.2 hfits).1⟩
    · exact fun e w' he => ⟨⟨hs.valid, he.2⟩, he.1, rfl⟩
    · intro f w' hf
      refine ⟨hf.1, ⟨hs.valid, hf.2.1⟩, fun hfits => .inl ?_⟩
      obtain ⟨made, _, _, hclone⟩ := hf.2.2 hfits
      exact ⟨[], made.length, hclone⟩
  · intro _
    refine (assignAll_meets other.items hs).imp ?_ (fun _ _ => id) ?_
    · intro _ u hu
      obtain ⟨t, w'⟩ := u
      obtain ⟨ht, hhandle, hlen, hmade⟩ := hu
      simp only [Act.held_meets, Act.hold_meets, Act.pure_meets]
      constructor
      · intro hpropagates
        exact ⟨⟨⟨ht.valid.region, ht.valid.len_le⟩, ht.owns⟩, by rw [if_pos hpropagates], hlen,
          _, hmade⟩
      · intro hstays
        exact ⟨ht, by rw [if_neg hstays]; exact hhandle, hlen, _, hmade⟩
    · intro f u hu
      refine ⟨hu.1, hu.2.1, fun hfits => ?_⟩
      rcases hu.2.2 hfits with hclone | hdrop
      · obtain ⟨_, _, _, _, hf, _⟩ := hclone
        exact .inl ⟨_, _, hf⟩
      · exact .inr hdrop.2.2.2

/-- Two valid sequences whose assets are in custody, beside the assets `m`. -/
structure SoundPair (E : Element σ α) (m : Multiset (Asset α))
    (u : (Sequence α × Sequence α) × World σ α) : Prop where
  first : u.1.1.Valid E
  second : u.1.2.Valid E
  owns : u.2.Owns (u.1.1.assets E + (u.1.2.assets E + m))

/-- A move that succeeds has taken the elements over, and a fault of a drop does not hinder it. -/
theorem moveFrom_meets (h : SoundPair E m ((s, other), w)) :
    (moveFrom E ((s, other), w)).Meets
      ⟨fun _ u => SoundPair E m u ∧ u.1.1.items = other.items ∧ u.1.2.items = [] ∧
          u.1.1.handle = s.handle ∧ u.1.2.handle = other.handle,
        fun e u => SoundPair E m u ∧ e.IsLack ∧ u.1 = (s, other),
        fun f u => f.Sanctioned E.toShape ∧ SoundPair E m u ∧ (E.toShape.Fits →
          (∃ x ∈ s.items, CanRaise (E.onDrop x) f) ∧ u.1.1.items = other.items ∧
            u.1.2.items = [])⟩ := by
  -- What is left of the second sequence stays beside the first one while that takes its contents.
  have hreplace : ∀ (region : Region) (w' : World σ α) (rest : Sequence α),
      region.Valid E.toShape → other.items.length ≤ region.capacity → rest.Valid E →
      rest.items = [] → rest.handle = other.handle →
      w'.Owns (Asset.elements other.items + region.assets E.toShape +
        (s.assets E + (rest.assets E + m))) →
      ((Act.onFirst (replace E region other.items)) ((s, rest), w')).Meets
        ⟨fun _ u => SoundPair E m u ∧ u.1.1.items = other.items ∧ u.1.2.items = [] ∧
            u.1.1.handle = s.handle ∧ u.1.2.handle = other.handle,
          fun e u => SoundPair E m u ∧ e.IsLack ∧ u.1 = (s, other),
          fun f u => f.Sanctioned E.toShape ∧ SoundPair E m u ∧ (E.toShape.Fits →
            (∃ x ∈ s.items, CanRaise (E.onDrop x) f) ∧ u.1.1.items = other.items ∧
              u.1.2.items = [])⟩ := by
    intro region w' rest hregion hlen hrest hnone hhandle howns
    rw [Act.onFirst_meets]
    refine (replace_meets h.first hregion hlen howns).imp ?_ (fun _ _ hu => hu.2.elim) ?_
    · intro _ u hu
      exact ⟨⟨hu.1.valid, hrest, hu.1.owns⟩, hu.2 ▸ rfl, hnone, hu.2 ▸ rfl, hhandle⟩
    · intro f u hu
      refine ⟨hu.1, ⟨hu.2.1.valid, hrest, hu.2.1.owns⟩, fun hfits => ?_⟩
      obtain ⟨hsame, hdrop⟩ := hu.2.2 hfits
      exact ⟨hdrop, hsame ▸ rfl, hnone⟩
  simp only [moveFrom, Act.bind_meets, Act.held_meets, Act.ite_meets, Act.hold_meets,
    Act.inWorld_meets]
  constructor
  · intro _
    refine hreplace other.region w { other with region := .empty, items := [] } h.second.region
      h.second.len_le ⟨Region.valid_empty _, Nat.le_refl 0⟩ rfl rfl (h.owns.of_eq ?_)
    simp only [assets, Asset.elements_nil, Region.assets_empty]
    abel
  · intro _
    refine (Staging.allocate_meets s.handle.allocator other.len w).imp ?_ ?_
      (fun _ _ => False.elim)
    · intro st w' hst
      obtain ⟨hst, hstart, hnone, hcapacity, hgranted⟩ := hst
      have hroom : other.items.length ≤ st.region.capacity - st.stop := by
        rw [Staging.stop, hstart, hnone, hcapacity]
        exact Nat.le_refl _
      have howns := hgranted _ (h.owns.of_eq (zero_add _).symm)
      simp only [Staging.moveAfter_meets, Staging.adopt_meets, hstart, hnone, List.nil_append,
        not_true_eq_false, false_implies, and_true, forall_const]
      refine ⟨fun _ => ?_, fun hfull => absurd hroom hfull⟩
      refine hreplace st.region w' { other with items := [] } hst.region hcapacity.ge
        ⟨h.second.region, Nat.zero_le _⟩ rfl rfl (howns.of_eq ?_)
      simp only [assets, Staging.assets, hnone, Asset.elements_nil]
      abel
    · intro e w' he
      have howns := he.2 _ (h.owns.of_eq (zero_add _).symm)
      exact ⟨⟨h.first, h.second, howns.of_eq (zero_add _)⟩, he.1, trivial⟩

/-- However moving ends, it leaves a sound pair behind. -/
theorem SoundPair.moved (h : SoundPair E m ((s, other), w)) :
    (moveFrom E ((s, other), w)).Meets (.always (SoundPair E m)) :=
  (moveFrom_meets h).imp (fun _ _ hu => hu.1) (fun _ _ hu => hu.1) (fun _ _ hu => hu.2.1)

/-! ## Items that are read -/

/-- Items are appended up to the first that is invalid, and the answer tells whether there was one. -/
theorem pushValid_meets (items : Feed (Option α)) (hs : Sound E m (s, w)) :
    (items.pushValid (push E) (s, w)).Meets (soundly E m
      ⟨fun valid t => t.handle = s.handle ∧ ∃ xs, t.items = s.items ++ xs ∧
          items.readItems = .ok (if valid then some xs else none),
        fun e _ => e.IsLack, fun f _ => items.ReadFaults f ∨ ∃ x, CanRaise (E.onDrop x) f⟩) := by
  have hpush : ∀ x (u : Sequence α × World σ α), Sound E m u ∧ u.1.handle = s.handle →
      (push E x u).Meets ⟨fun _ v => (Sound E m v ∧ v.1.handle = s.handle) ∧ v.1.items = u.1.items ++ [x],
        fun e v => Sound E m v ∧ e.IsLack, fun f v => f.Sanctioned E.toShape ∧ Sound E m v ∧
          (E.toShape.Fits → ∃ x, CanRaise (E.onDrop x) f)⟩ := by
    rintro x ⟨t, w'⟩ ⟨ht, hhandle⟩
    refine (push_meets x ht).imp ?_ (fun e v hv => ⟨hv.1, hv.2.1⟩) ?_
    · exact fun _ v hv => ⟨⟨hv.1, hv.2.1.trans hhandle⟩, hv.2.2⟩
    · exact fun f v hv => ⟨hv.1, hv.2.1, fun hfits => ⟨x, (hv.2.2 hfits).1⟩⟩
  refine (Feed.pushValid_meets (fun u => u.1.items) hpush items ⟨hs, rfl⟩).imp ?_ (fun _ _ => id) ?_
  · exact fun valid u hu => ⟨hu.1.1, hu.1.2, hu.2⟩
  · rintro f u (⟨⟨hu, -⟩, hread⟩ | ⟨hsanctioned, hu, hraise⟩)
    · obtain ⟨message, -, hf⟩ := id hread
      exact ⟨Fault.IsRaised.sanctioned ⟨message, hf⟩ _, hu, fun _ => .inl hread⟩
    · exact ⟨hsanctioned, hu, fun hfits => .inr (hraise hfits)⟩

/-- The reservation for a hint changes the capacity alone. -/
theorem reserveHinted_meets (hint : Option Nat) (hs : Sound E m (s, w)) :
    (reserveHinted E hint (s, w)).Meets (soundly E m (resized s fun _ => True)) := by
  rw [reserveHinted, Act.bind_meets, Act.held_meets]
  cases hint with
  | none => exact ⟨hs, rfl, rfl, trivial⟩
  | some n =>
      exact soundly_imp (reserve_meets _ hs) (fun _ _ ht => ⟨ht.1, ht.2.1, trivial⟩)
        (fun _ _ => id) (fun _ _ => id)

/-- A sequence of the items that are read, if these are all valid; whatever else happens, nothing is left. -/
theorem read_meets (hint : Option Nat) (items : Feed (Option α)) (handle : Handle)
    (h : w.Owns m) :
    (read E hint items handle w).Meets
      ⟨fun r w' => items.readItems = .ok (r.map Sequence.items) ∧
          match r with
          | some s => Sound E m (s, w') ∧ s.handle = handle
          | none => w'.Owns m,
        fun e w' => e.IsLack ∧ w'.Owns m,
        fun f w' => f.Sanctioned E.toShape ∧ w'.Owns m ∧
          (E.toShape.Fits → items.ReadFaults f ∨ ∃ x, CanRaise (E.onDrop x) f)⟩ := by
  have hwork : ((do reserveHinted E hint; items.pushValid (push E)) (empty handle, w)).Meets
      (soundly E m ⟨fun valid t => t.handle = handle ∧
          items.readItems = Except.ok (if valid then some t.items else none),
        fun e _ => e.IsLack, fun f _ => items.ReadFaults f ∨ ∃ x, CanRaise (E.onDrop x) f⟩) := by
    rw [Act.bind_meets]
    apply (reserveHinted_meets hint (sound_empty handle h)).imp
    · intro _ u hu
      obtain ⟨t, w'⟩ := u
      obtain ⟨ht, hitems, hhandle, _⟩ := hu
      refine soundly_imp (pushValid_meets items ht) ?_ (fun _ _ => id) (fun _ _ => id)
      rintro valid t' ⟨hsame, xs, hpushed, hread⟩
      refine ⟨hsame.trans hhandle, ?_⟩
      have hxs : t'.items = xs := by
        rw [hpushed, hitems]
        rfl
      rw [hread, hxs]
    · exact fun e u hu => ⟨hu.1, hu.2.1⟩
    · exact fun f u hu => ⟨hu.1, hu.2.1, fun hfits => (hu.2.2 hfits).elim⟩
  rw [read, Act.bind_meets]
  apply (build_meets handle hwork).imp
  · intro r w' hr
    obtain ⟨s, valid⟩ := r
    obtain ⟨hs, hhandle, hread⟩ := hr
    cases valid with
    | true => exact ⟨hread, hs, hhandle⟩
    | false =>
        apply Act.bind_meets.mpr
        refine (dispose_meets hs.valid false hs.owns).imp ?_ (fun _ _ => False.elim) ?_
        · exact fun _ w'' h' => ⟨hread, h'⟩
        · intro f w'' h'
          refine ⟨h'.1, h'.2.1, fun hfits => ?_⟩
          obtain ⟨⟨x, _, hraise⟩, _⟩ := h'.2.2 hfits
          exact .inr ⟨x, hraise⟩
  · intro e w' he
    obtain ⟨h', _, hlack⟩ := he
    exact ⟨hlack, h'⟩
  · intro f w' hf
    refine ⟨hf.1, hf.2.1, fun hfits => ?_⟩
    rcases hf.2.2 hfits with hwork | hdrop
    · obtain ⟨_, hraise⟩ := hwork
      exact hraise
    · obtain ⟨_, _, x, _, hraise⟩ := hdrop
      exact .inr ⟨x, hraise⟩

end Growable.Sequence

/-! ## Sequences that are taken apart -/

namespace Growable.Drain

variable {σ α : Type} {E : Element σ α} {d : Drain α} {w : World σ α} {m : Multiset (Asset α)}

/-- The region of a drain can be released, and what is left of its sequence is in custody. -/
structure Sound (E : Element σ α) (m : Multiset (Asset α)) (u : Drain α × World σ α) : Prop where
  region : u.1.region.Valid E.toShape
  owns : u.2.Owns (Asset.elements u.1.rest + (u.1.region.assets E.toShape + m))

/-- A sequence in custody is a drain in custody. -/
theorem sound_of {s : Sequence α} (hs : s.Valid E) (h : w.Owns (s.assets E + m)) :
    Sound E m (Drain.of s, w) :=
  ⟨hs.region, h.of_eq (by rw [Sequence.assets, add_assoc]; rfl)⟩

/-- The first element is handed out, and the drain keeps the others in custody. -/
theorem next_meets (hd : Sound E m (d, w)) :
    (next (d, w)).Meets (.returns fun x u => Sound E m u ∧ x = d.rest.head? ∧
      u.1.rest = d.rest.tail) := by
  simp only [next, Act.bind_meets, Act.held_meets]
  cases hrest : d.rest with
  | nil => exact ⟨hd, rfl, hrest⟩
  | cons x rest =>
      simp only [Act.bind_meets, Act.hold_meets, Act.inWorld_meets, Act.pure_meets]
      refine (World.hand_meets x (m := Asset.elements rest + (d.region.assets E.toShape + m))
        (hd.owns.of_eq ?_)).of_returns ?_
      · rw [hrest, Asset.elements_cons, add_assoc]
      · exact fun _ w' h' => ⟨⟨hd.region, h'⟩, rfl, rfl⟩

/-- The last element is handed out, and the drain keeps the others in custody. -/
theorem nextBack_meets (hd : Sound E m (d, w)) :
    (nextBack (d, w)).Meets (.returns fun x u => Sound E m u ∧ x = d.rest.getLast? ∧
      u.1.rest = d.rest.dropLast) := by
  simp only [nextBack, Act.bind_meets, Act.held_meets]
  cases hlast : d.rest.getLast? with
  | none =>
      have hnil := List.getLast?_eq_none_iff.mp hlast
      exact ⟨hd, rfl, by rw [hnil, List.dropLast_nil]⟩
  | some x =>
      have hitems := List.dropLast_append_getLast? x hlast
      simp only [Act.bind_meets, Act.hold_meets, Act.inWorld_meets, Act.pure_meets]
      refine (World.hand_meets x
        (m := Asset.elements d.rest.dropLast + (d.region.assets E.toShape + m))
        (hd.owns.of_eq ?_)).of_returns ?_
      · conv_lhs => rw [← hitems]
        rw [Asset.elements_append, Asset.elements_cons, Asset.elements_nil]
        abel
      · exact fun _ w' h' => ⟨⟨hd.region, h'⟩, rfl, rfl⟩

/-- Everything that a drain answered for is gone once it is disposed of. -/
theorem dispose_meets (hd : Sound E m (d, w)) (unwinding : Bool) :
    (d.dispose E unwinding w).Meets ⟨fun _ w' => w'.Owns m, fun _ _ => False,
      fun f w' => f.Sanctioned E.toShape ∧ w'.Owns m ∧
        (E.toShape.Fits → (∃ x ∈ d.rest, CanRaise (E.onDrop x) f) ∧ unwinding = false)⟩ :=
  E.dropAll_release_meets hd.region d.handle.allocator unwinding d.rest hd.owns

end Growable.Drain
