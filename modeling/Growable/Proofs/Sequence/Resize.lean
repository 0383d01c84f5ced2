import Growable.Proofs.Sequence.Insertion
import Growable.Sequence.Resize

/-!
# What resizing does

A sequence keeps its first elements, and new ones are made behind them.  They join it all at once: a
fault in one of them leaves the sequence as it was (`resizeMade_meets`), whether they were made in the
free slots (`makeTail_meets`) or in a larger region.
-/

namespace Growable.Sequence

variable {σ α : Type} {E : Element σ α} {s : Sequence α} {w : World σ α} {m : Multiset (Asset α)}
  {P : Nat → α → Prop} {F : Nat → Fault → Prop}

/-- The elements are in custody once all of them are made; a fault leaves none. -/
theorem makeTail_meets {make : Nat → Act (World σ α) α} {capacity len : Nat} (k count : Nat)
    {made : List α}
    (hmake : ∀ j, k ≤ j → j < k + count → Act.Produces 0 (P j) (F j) (make j))
    (hroom : len + made.length + count ≤ capacity) (h : w.Owns (Asset.elements made + m)) :
    (makeTail E make capacity len k count made w).Meets
      ⟨fun ys w' => ∃ xs, xs.length = count ∧ Staging.Made P k xs ∧ ys = made ++ xs ∧
          w'.Owns (Asset.elements ys + m),
        fun _ _ => False,
        fun f w' => (∃ xs, xs.length < count ∧ Staging.Made P k xs ∧ F (k + xs.length) f) ∧
          f.IsRaised ∧ w'.Owns m⟩ := by
  induction count generalizing k made w with
  | zero => exact ⟨[], rfl, Staging.made_nil, (List.append_nil _).symm, h⟩
  | succ count ih =>
      simp only [makeTail, Act.bind_meets, Act.onFault_meets, Act.require_meets, Act.pure_meets]
      refine (hmake k (Nat.le_refl k) (by omega) w _ (h.of_eq (zero_add _).symm)).imp ?_
        (fun _ _ => False.elim) ?_
      · intro x w' hx
        refine ⟨fun _ => ?_, fun hfull => absurd (by omega) hfull⟩
        have howns : w'.Owns (Asset.elements (made ++ [x]) + m) := by
          apply hx.2.of_eq
          rw [Asset.elements_append, Asset.elements_cons, Asset.elements_nil]
          abel
        refine (ih (k + 1) (fun j hj hlt => hmake j (by omega) (by omega))
          (by rw [List.length_append, List.length_singleton]; omega) howns).imp ?_
          (fun _ _ => id) ?_
        · intro ys w'' hys
          obtain ⟨xs, hlen, hxs, rfl, h''⟩ := hys
          exact ⟨x :: xs, by simp [hlen], .cons hx.1 hxs, by simp, h''⟩
        · intro f w'' hf
          obtain ⟨⟨xs, hlen, hxs, hf⟩, hrest⟩ := hf
          refine ⟨⟨x :: xs, by simpa using hlen, .cons hx.1 hxs, ?_⟩, hrest⟩
          rwa [List.length_cons, ← Nat.add_assoc, Nat.add_right_comm]
      · intro f w' hf
        obtain ⟨hf, hraised, h'⟩ := hf
        have hfirst : ∃ xs, xs.length < count + 1 ∧ Staging.Made P k xs ∧ F (k + xs.length) f :=
          ⟨[], Nat.succ_pos count, Staging.made_nil, hf⟩
        exact (E.dropAll_meets true made h').imp (fun _ _ hm => ⟨hfirst, hraised, hm⟩)
          (fun _ _ => False.elim) (fun _ _ hm => ⟨hfirst, hraised, hm.2.2⟩)

/-- The claim that the first `n` elements are kept, with new ones that satisfy `P` behind them where some
are missing. -/
def lengthened (E : Element σ α) (s : Sequence α) (n : Nat) (P : Nat → α → Prop)
    (F : Nat → Fault → Prop) : Post (Sequence α) Unit :=
  ⟨fun _ t => t.handle = s.handle ∧ ∃ xs, xs.length = n - s.len ∧ Staging.Made P 0 xs ∧
      t.items = s.items.take n ++ xs,
    fun e t => e.IsLack ∧ t = s,
    fun f t => t = { s with items := s.items.take n } ∧
      ((∃ x ∈ s.items.drop n, CanRaise (E.onDrop x) f) ∨
        ∃ made, made.length < n - s.len ∧ Staging.Made P 0 made ∧ F made.length f)⟩

/-- A resize removes, or appends in the spare slots, or builds a new block. -/
theorem resizeMade_eq (n : Nat) (make : Nat → Act (World σ α) α) :
    resizeMade E n make = (do
      let s ← Act.held
      if n ≤ s.len then
        truncate E n
      else
        Act.ofExcept (Capacity.check n (s.maxSize E))
        if n ≤ s.capacity then
          let tail ← Act.inWorld (makeTail E make s.capacity s.len 0 (n - s.len) [])
          Act.hold { s with items := s.items ++ tail }
        else
          let r ← Act.inWorld (Staging.assemble E s.handle.allocator n s.items []
            (Staging.extend E make 0 (n - s.len)))
          install E r.1 r.2) := by
  simp only [resizeMade, Staging.assemble, Staging.moveAfter_nil, pure_bind]
  rfl

/-- What is put behind all elements makes the sequence longer. -/
theorem lengthened_of_inserted {n : Nat} {o : Outcome (Sequence α × World σ α) Unit}
    (hlong : ¬ n ≤ s.len)
    (h : o.Meets (soundly E m (inserted s s.len (n - s.len) P F fun _ => s.items))) :
    o.Meets (soundly E m (s.lengthened E n P F)) := by
  have htake : s.items.take n = s.items := List.take_of_length_le (Nat.le_of_not_le hlong)
  apply soundly_imp h
  · intro _ t ht
    obtain ⟨_, hhandle, xs, hlen, hxs, hitems⟩ := ht
    refine ⟨hhandle, xs, hlen, hxs, hitems.trans ?_⟩
    rw [htake, len, List.take_length, List.drop_length, List.append_nil]
  · intro e t ht
    rcases ht with ⟨hdue | hlack, hsame⟩
    · cases (checkPosition_eq_ok (Nat.le_refl s.len)).symm.trans hdue
    · exact ⟨hlack.2, hsame⟩
  · intro f t ht
    obtain ⟨_, made, hlen, hmade, hf, hsame⟩ := ht
    exact ⟨by rw [htake]; exact hsame, .inr ⟨made, hlen, hmade, hf⟩⟩

/-- A resize keeps the first elements and has the new ones behind them; a fault leaves none of the new ones. -/
theorem resizeMade_meets {make : Nat → Act (World σ α) α} (n : Nat) (hs : Sound E m (s, w))
    (hmake : ∀ k < n - s.len, Act.Produces 0 (P k) (F k) (make k)) :
    (resizeMade E n make (s, w)).Meets (soundly E m (s.lengthened E n P F)) := by
  rw [resizeMade_eq]
  simp only [Act.bind_meets, Act.held_meets, Act.ite_meets, Act.ofExcept_meets, Act.inWorld_meets,
    Act.hold_meets]
  refine ⟨fun hshort => ?_, fun hlong => ⟨fun _ _ => ⟨fun hroom => ?_, fun _ => ?_⟩, ?_⟩⟩
  · refine soundly_imp (truncate_meets n hs) ?_ (fun _ _ => False.elim)
      (fun _ _ ht => ⟨ht.1, .inl ht.2⟩)
    intro _ t ht
    subst ht
    exact ⟨rfl, [], (Nat.sub_eq_zero_of_le hshort).symm, Staging.made_nil,
      (List.append_nil _).symm⟩
  all_goals have htake : s.items.take n = s.items := List.take_of_length_le (Nat.le_of_not_le hlong)
  · refine (makeTail_meets 0 (n - s.len) (fun j _ hj => hmake j (by omega))
      (by rw [List.length_nil]; omega) (m := s.assets E + m)
      (hs.owns.of_eq (by rw [Asset.elements_nil, zero_add]))).imp ?_ (fun _ _ => False.elim) ?_
    · intro ys w' hys
      obtain ⟨xs, hlen, hxs, rfl, h'⟩ := hys
      refine ⟨Sound.with_items hs.valid.region ?_ (h'.of_eq ?_), rfl, ys, hlen, hxs, by rw [htake]⟩
      · rw [List.length_append, hlen]
        change s.len + (n - s.len) ≤ s.capacity
        omega
      · rw [assets, Asset.elements_append]
        abel
    · intro f w' hf
      obtain ⟨⟨made, hlen, hmade, hf⟩, hraised, h'⟩ := hf
      refine ⟨hraised.sanctioned _, ⟨hs.valid, h'⟩, fun _ => ⟨by rw [htake], .inr ?_⟩⟩
      exact ⟨made, hlen, hmade, by rwa [Nat.zero_add] at hf⟩
  · have hgiven := hs.given_zero
    have hassemble := assemble_meets hgiven (Nat.le_refl s.len)
      (Staging.extend_constructs hmake) (Nat.add_sub_of_le (Nat.le_of_not_le hlong)).le
    rw [soundlyGiven_zero, len, List.take_length, List.drop_length] at hassemble
    apply hassemble.imp
    · intro r w' hr
      have hinstall : (install E r.1 r.2 (s, w')).Meets (soundlyGiven E 0 m
          (inserted s s.len (n - s.len) P F fun _ => s.items)) :=
        install_assembled_meets hs.valid (Nat.le_refl s.len) hr
      rw [soundlyGiven_zero] at hinstall
      exact lengthened_of_inserted hlong hinstall
    · exact fun e w' he => lengthened_of_inserted (o := .refused e (s, w')) hlong he
    · exact fun f w' hf => lengthened_of_inserted (o := .faulted f (s, w')) hlong hf
  · exact fun e he => ⟨hs, Capacity.eq_of_check_eq_error he ▸ trivial, rfl⟩

/-- The claim of a resizing that is given the element `x` to clone, and drops it in the end. -/
def lengthenedBy (E : Element σ α) (s : Sequence α) (n : Nat) (x : α) : Post (Sequence α) Unit :=
  let post := s.lengthened E n (fun _ => CanYield (E.onClone x)) (fun _ => CanRaise (E.onClone x))
  ⟨post.done, post.refused, fun f t => post.faulted f t ∨
    CanRaise (E.onDrop x) f ∧ ((∃ b, post.done b t) ∨ ∃ e, post.refused e t)⟩

/-- A resize to clones of an element drops that element last, whether it has succeeded or not. -/
theorem resize_meets (n : Nat) (x : α) (hs : Sound E m (s, w)) :
    (resize E n x (s, w)).Meets (soundly E m (s.lengthenedBy E n x)) := by
  simp only [resize, Act.bind_meets, Act.inWorld_meets, Act.ensuring_meets]
  apply (World.receive_meets x hs.owns).of_returns
  intro _ w₁ h₁
  have hs₁ : Sound E ({.element x} + m) (s, w₁) :=
    ⟨hs.valid, h₁.of_eq (add_left_comm _ _ _)⟩
  -- The element is dropped beside the sequence, whatever became of that.
  have hdrop : ∀ (unwinding : Bool) (t : Sequence α) (w₂ : World σ α),
      Sound E ({.element x} + m) (t, w₂) →
      ((Act.inWorld (E.drop unwinding x)) (t, w₂)).Meets ⟨fun _ u => u.1 = t ∧ Sound E m u,
        fun _ _ => False, fun f u => CanRaise (E.onDrop x) f ∧ u.1 = t ∧ Sound E m u⟩ := by
    intro unwinding t w₂ ht
    rw [Act.inWorld_meets]
    refine (E.drop_meets unwinding x (ht.owns.of_eq (add_left_comm _ _ _))).imp ?_
      (fun _ _ => False.elim) ?_
    · exact fun _ w' h' => ⟨rfl, ht.valid, h'⟩
    · exact fun f w' h' => ⟨h'.1, rfl, ht.valid, h'.2.2⟩
  apply (resizeMade_meets n hs₁ (fun _ _ => E.clone_produces x)).imp
  · intro _ u hu
    refine (hdrop false u.1 u.2 hu.1).imp ?_ (fun _ _ => False.elim) ?_
    · exact fun _ u' h' => ⟨h'.2, h'.1 ▸ hu.2⟩
    · exact fun f u' h' => ⟨h'.1.isRaised.sanctioned _, h'.2.2,
        fun _ => .inr ⟨h'.1, .inl ⟨(), h'.2.1 ▸ hu.2⟩⟩⟩
  · intro e u hu
    refine (hdrop false u.1 u.2 hu.1).imp ?_ (fun _ _ => False.elim) ?_
    · exact fun _ u' h' => ⟨h'.2, h'.1 ▸ hu.2⟩
    · exact fun f u' h' => ⟨h'.1.isRaised.sanctioned _, h'.2.2,
        fun _ => .inr ⟨h'.1, .inr ⟨e, h'.2.1 ▸ hu.2⟩⟩⟩
  · intro f u hu
    dsimp only [Post.always]
    refine (hdrop true u.1 u.2 hu.2.1).imp ?_ (fun _ _ => False.elim) ?_
    · exact fun _ u' h' => ⟨hu.1, h'.2, fun hfits => .inl (h'.1 ▸ hu.2.2 hfits)⟩
    · exact fun _ u' h' => ⟨hu.1, h'.2.2, fun hfits => .inl (h'.2.1 ▸ hu.2.2 hfits)⟩

end Growable.Sequence
