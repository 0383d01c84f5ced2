import Growable.Proofs.Sequence.Resize
import Growable.Sequence.Creation

/-!
# What creation does

A new sequence is sound beside whatever was in custody before; if it could not be completed, everything
is as it was (`Sequence.created`).

* `build_meets` — an operation on a sequence without elements makes a new sequence;
* `replicate_meets`, `copy_meets` — clones in a region of exactly their number.
-/

namespace Growable.Sequence

variable {σ α β : Type} {E : Element σ α} {s : Sequence α} {w : World σ α} {m : Multiset (Asset α)}
  {P : Nat → α → Prop} {F : Nat → Fault → Prop}

/-- The claim that a sound sequence is made that satisfies `Q`, or nothing of it is left. -/
def created (E : Element σ α) (m : Multiset (Asset α)) (Q : Sequence α → Prop) (G : Fault → Prop) :
    Post (World σ α) (Sequence α) :=
  ⟨fun s w' => Sound E m (s, w') ∧ Q s, fun e w' => e.IsLack ∧ w'.Owns m,
    fun f w' => f.Sanctioned E.toShape ∧ w'.Owns m ∧ (E.toShape.Fits → G f)⟩

/-- An empty sequence owns nothing. -/
theorem sound_empty (handle : Handle) (h : w.Owns m) : Sound E m (empty handle, w) :=
  ⟨valid_empty E handle, h.of_eq (by rw [assets_empty, zero_add])⟩

/-- A sequence that is given up after an operation on it leaves nothing. -/
theorem build_meets {work : SequenceAct σ α β} {post : Post (Sequence α) β} (handle : Handle)
    (hwork : (work (empty handle, w)).Meets (soundly E m post)) :
    (build E handle work w).Meets
      ⟨fun r w' => Sound E m (r.1, w') ∧ post.done r.2 r.1,
        fun e w' => w'.Owns m ∧ ∃ t, post.refused e t,
        fun f w' => f.Sanctioned E.toShape ∧ w'.Owns m ∧ (E.toShape.Fits →
          (∃ t, post.faulted f t) ∨
            ∃ t, (∃ e, post.refused e t) ∧ ∃ x ∈ t.items, CanRaise (E.onDrop x) f)⟩ := by
  rw [build, Act.owning_meets]
  refine hwork.imp (fun _ _ => id) ?_ ?_
  · intro e u hu
    obtain ⟨hs, hrefused⟩ := hu
    refine (dispose_meets hs.valid false hs.owns).imp ?_ (fun _ _ => False.elim) ?_
    · exact fun _ w' h' => ⟨h', u.1, hrefused⟩
    · intro f w' h'
      refine ⟨h'.1, h'.2.1, fun hfits => .inr ⟨u.1, ⟨e, hrefused⟩, ?_⟩⟩
      exact (h'.2.2 hfits).1
  · intro f u hu
    obtain ⟨hsanctioned, hs, hfaulted⟩ := hu
    refine (dispose_meets hs.valid true hs.owns).imp ?_ (fun _ _ => False.elim) ?_
    · exact fun _ w' h' => ⟨hsanctioned, h', fun hfits => .inl ⟨u.1, hfaulted hfits⟩⟩
    · exact fun _ w' h' => ⟨hsanctioned, h'.2.1, fun hfits => .inl ⟨u.1, hfaulted hfits⟩⟩

/-- A sequence made with a capacity has at least that, and no elements. -/
theorem withCapacity_meets (capacity : Nat) (handle : Handle) (h : w.Owns m) :
    (withCapacity E capacity handle w).Meets
      (created E m (fun s => s.items = [] ∧ s.handle = handle ∧ capacity ≤ s.capacity)
        fun _ => False) := by
  simp only [withCapacity, Act.bind_meets, Act.pure_meets]
  apply (build_meets handle (reserve_meets capacity (sound_empty handle h))).imp
  · exact fun _ _ hr => hr
  · intro e w' he
    obtain ⟨h', _, hlack, _⟩ := he
    exact ⟨hlack, h'⟩
  · intro f w' hf
    refine ⟨hf.1, hf.2.1, fun hfits => ?_⟩
    rcases hf.2.2 hfits with hnever | hdrop
    · obtain ⟨_, hnever⟩ := hnever
      exact hnever
    · obtain ⟨_, ⟨_, _, hsame⟩, x, hx, _⟩ := hdrop
      rw [hsame] at hx
      cases hx

/-- Elements that are made in a new region are a sequence. -/
theorem assemble_sequence_meets {make : Nat → Act (World σ α) α} {count : Nat} (handle : Handle)
    (h : w.Owns m) (hmake : ∀ k < count, Act.Produces 0 (P k) (F k) (make k)) :
    ((do
      let r ← Staging.assemble E handle.allocator count [] [] (Staging.extend E make 0 count)
      return ⟨r.1, r.2, handle⟩ : Act (World σ α) (Sequence α)) w).Meets
      (created E m (fun s => s.handle = handle ∧ s.capacity = count ∧ s.items.length = count ∧
          Staging.Made P 0 s.items)
        fun f => ∃ made, made.length < count ∧ Staging.Made P 0 made ∧ F made.length f) := by
  simp only [Act.bind_meets, Act.pure_meets]
  refine (Staging.assemble_meets handle.allocator (Staging.extend_constructs hmake)
    (by simp) (h.of_eq (zero_add m).symm)).imp ?_ ?_ ?_
  · intro r w' hr
    obtain ⟨hregion, hcapacity, xs, hlen, hxs, hitems, h'⟩ := hr
    rw [List.nil_append, List.append_nil] at hitems
    refine ⟨⟨⟨hregion, ?_⟩, ?_⟩, rfl, hcapacity, ?_, ?_⟩
    · exact (hitems ▸ hlen).trans_le hcapacity.ge
    · exact h'.of_eq (by rw [assets, hitems])
    · exact hitems ▸ hlen
    · exact hitems ▸ hxs
  · exact fun e w' he => ⟨he.1, he.2.of_eq (zero_add m)⟩
  · exact fun f w' hf => ⟨hf.2.1.sanctioned _, hf.2.2, fun _ => hf.1⟩

/-- Copies of an element fill a block of exactly their number, or leave nothing behind. -/
theorem replicate_meets (count : Nat) (x : α) (handle : Handle) (h : w.Owns m) :
    (replicate E count x handle w).Meets (created E m
      (fun s => s.handle = handle ∧ s.capacity = count ∧ s.items.length = count ∧
        Staging.Made (E.ClonedFrom (List.replicate count x)) 0 s.items)
      fun f => ∃ made, made.length < count ∧
        Staging.Made (E.ClonedFrom (List.replicate count x)) 0 made ∧
        E.CloneFaults (List.replicate count x) made.length f) := by
  have hmake : ∀ k < count, Act.Produces 0 (E.ClonedFrom (List.replicate count x) k)
      (E.CloneFaults (List.replicate count x) k) (E.clone x) := by
    intro k hk
    apply E.clone_nth_produces
    rw [List.getElem?_replicate, if_pos hk]
  have hassemble := assemble_sequence_meets (E := E) handle h hmake
  rw [Staging.assemble_new] at hassemble
  simp only [bind_assoc] at hassemble
  rw [replicate, Act.bind_meets, Act.ofExcept_meets]
  exact ⟨fun _ _ => hassemble, fun e he => ⟨Capacity.eq_of_check_eq_error he ▸ trivial, h⟩⟩

/-- A copy fills a block of exactly the length, or leaves nothing behind. -/
theorem copy_meets (h : w.Owns m) :
    (s.copy E w).Meets (created E m
      (fun t => t.handle = s.handle ∧ t.capacity = s.len ∧ t.items.length = s.len ∧
        Staging.Made (E.ClonedFrom s.items) 0 t.items)
      fun f => ∃ made, made.length < s.len ∧ Staging.Made (E.ClonedFrom s.items) 0 made ∧
        E.CloneFaults s.items made.length f) := by
  have hmake : ∀ k < s.len, Act.Produces 0 (E.ClonedFrom s.items k) (E.CloneFaults s.items k)
      (do E.clone (← Act.ofOption .source s.items[k]?)) := by
    intro k hk
    have hsome : s.items[k]? = some s.items[k] := List.getElem?_eq_getElem hk
    rw [hsome]
    exact E.clone_nth_produces hsome
  have hassemble := assemble_sequence_meets (E := E) s.handle h hmake
  rw [Staging.assemble_new] at hassemble
  simp only [bind_assoc] at hassemble
  exact hassemble

/-- A copy that is taken for granted faults where the copy would be refused. -/
theorem copyDemanded_meets (h : w.Owns m) :
    (s.copyDemanded E w).Meets (created E m
      (fun t => t.handle = s.handle ∧ t.capacity = s.len ∧ t.items.length = s.len ∧
        Staging.Made (E.ClonedFrom s.items) 0 t.items)
      fun f => (∃ made, made.length < s.len ∧ Staging.Made (E.ClonedFrom s.items) 0 made ∧
        E.CloneFaults s.items made.length f) ∨ ∃ e, e.IsLack ∧ f = .copyRefused e) := by
  have hcopy := copy_meets (E := E) (s := s) h
  unfold copyDemanded
  cases houtcome : s.copy E w with
  | done t w' =>
      rw [houtcome] at hcopy
      exact hcopy
  | refused e w' =>
      rw [houtcome] at hcopy
      exact ⟨fun _ check => by simp, hcopy.2, fun _ => .inr ⟨e, hcopy.1, rfl⟩⟩
  | faulted f w' =>
      rw [houtcome] at hcopy
      exact ⟨hcopy.1, hcopy.2.1, fun hfits => .inl (hcopy.2.2 hfits)⟩

end Growable.Sequence
