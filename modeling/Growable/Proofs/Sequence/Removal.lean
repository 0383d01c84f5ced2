import Growable.Proofs.Sequence.Opening
import Growable.Proofs.Sequence.Storage

/-!
# What removal does

Elements are taken away (`pop_meets`, `erase_meets`, `truncate_meets`, `eraseSpan_meets`), or put in the
place of others (`exchange_meets`, `carry_meets`); none of this changes the region.  The elements that
are kept are the same whether a drop of another one faults or not.
-/

namespace Growable.Sequence

variable {σ α : Type} {E : Element σ α} {s : Sequence α} {w : World σ α} {m : Multiset (Asset α)}

/-! ## Elements taken away -/

/-- The last element is handed out, if there is one. -/
theorem pop_meets (hs : Sound E m (s, w)) :
    (pop (s, w)).Meets (soundly E m
      ⟨fun x t => x = s.items.getLast? ∧ t = { s with items := s.items.dropLast },
        fun _ _ => False, fun _ _ => False⟩) := by
  simp only [pop, Act.bind_meets, Act.held_meets]
  cases hlast : s.items.getLast? with
  | none =>
      have hnil := List.getLast?_eq_none_iff.mp hlast
      have hsame : s = { s with items := s.items.dropLast } := by
        rw [hnil, List.dropLast_nil, ← hnil]
      exact ⟨hs, rfl, hsame⟩
  | some x =>
      have hitems := List.dropLast_append_getLast? x hlast
      have hparts := hs.owns_parts
      rw [← hitems] at hparts
      simp only [Act.bind_meets, Act.hold_meets, Act.inWorld_meets, Act.pure_meets]
      refine (World.hand_meets x
        (m := Asset.elements s.items.dropLast + (s.region.assets E.toShape + m))
        (hparts.of_eq ?_)).of_returns ?_
      · simp only [Asset.elements_append, Asset.elements_cons, Asset.elements_nil]
        abel
      · have hlen := hs.valid.len_le
        exact fun _ w' h' => ⟨Sound.with_items hs.valid.region
          (Nat.le_trans (by simp [len]) hlen) h', rfl, rfl⟩

/-- The element at the index is handed out and the gap closed. -/
theorem erase_meets (index : Nat) (hs : Sound E m (s, w)) :
    (erase index (s, w)).Meets (soundly E m
      ⟨fun x t => s.get index = .ok x ∧ t = { s with items := s.items.eraseIdx index },
        fun e t => s.get index = .error e ∧ t = s, fun _ _ => False⟩) := by
  rw [erase_eq]
  simp only [Act.bind_meets, Act.held_meets, Act.ofExcept_meets, Act.hold_meets,
    Act.inWorld_meets, Act.pure_meets]
  refine ⟨fun x hx => ?_, fun e he => ⟨hs, he, rfl⟩⟩
  have hitems := Asset.elements_eraseIdx (get_eq_ok_iff.mp hx)
  refine (World.hand_meets x
    (m := Asset.elements (s.items.eraseIdx index) + (s.region.assets E.toShape + m))
    (hs.owns_parts.of_eq ?_)).of_returns ?_
  · rw [← hitems, add_assoc]
  · have hlen := hs.valid.len_le
    exact fun _ w' h' => ⟨Sound.with_items hs.valid.region
      (Nat.le_trans (List.length_eraseIdx_le _ _) hlen) h', hx, rfl⟩

/-- Elements of a sequence that is left with others in the same region are dropped. -/
theorem drop_part_meets {kept dropped : List α} (hs : s.Valid E) (hlen : kept.length ≤ s.capacity)
    (h : w.Owns (Asset.elements dropped + (Asset.elements kept + (s.region.assets E.toShape + m)))) :
    ((Act.inWorld (E.dropAll false dropped)) ({ s with items := kept }, w)).Meets (soundly E m
      ⟨fun _ t => t = { s with items := kept }, fun _ _ => False,
        fun f t => t = { s with items := kept } ∧ ∃ x ∈ dropped, CanRaise (E.onDrop x) f⟩) := by
  rw [Act.inWorld_meets]
  refine (E.dropAll_meets false dropped h).imp ?_ (fun _ _ => False.elim) ?_
  · exact fun _ w' h' => ⟨Sound.with_items hs.region hlen h', rfl⟩
  · intro f w' h'
    obtain ⟨⟨x, hx, hraise⟩, _, h'⟩ := h'
    exact ⟨hraise.isRaised.sanctioned _, Sound.with_items hs.region hlen h', fun _ => ⟨rfl, x, hx, hraise⟩⟩

/-- The elements are gone from the sequence before they are dropped, so that a fault leaves the same
as a success. -/
theorem truncate_meets (n : Nat) (hs : Sound E m (s, w)) :
    (truncate E n (s, w)).Meets (soundly E m
      ⟨fun _ t => t = { s with items := s.items.take n }, fun _ _ => False,
        fun f t => t = { s with items := s.items.take n } ∧
          ∃ x ∈ s.items.drop n, CanRaise (E.onDrop x) f⟩) := by
  simp only [truncate, Act.bind_meets, Act.held_meets, Act.ite_meets, Act.pure_meets,
    Act.hold_meets]
  refine ⟨fun hshort => ⟨hs, ?_⟩, fun _ => ?_⟩
  · rw [List.take_of_length_le hshort]
  · have hlen : s.items.length ≤ s.capacity := hs.valid.len_le
    refine drop_part_meets hs.valid (by simp only [List.length_take]; omega)
      (hs.owns_parts.of_eq ?_)
    rw [← Asset.elements_take_add_drop n s.items]
    abel

/-- The span is gone from the sequence before it is dropped, and the gap is closed in either case. -/
theorem eraseSpan_meets (span : Span) (hs : Sound E m (s, w)) :
    (eraseSpan E span (s, w)).Meets (soundly E m
      ⟨fun _ t => ∃ start stop, span.within s.len = .ok (start, stop) ∧
          t = { s with items := s.items.take start ++ s.items.drop stop },
        fun e t => span.within s.len = .error e ∧ t = s,
        fun f t => ∃ start stop, span.within s.len = .ok (start, stop) ∧
          t = { s with items := s.items.take start ++ s.items.drop stop } ∧
          ∃ x ∈ (s.items.drop start).take (stop - start), CanRaise (E.onDrop x) f⟩) := by
  rw [eraseSpan_eq]
  simp only [Act.bind_meets, Act.held_meets, Act.ofExcept_meets]
  refine ⟨?_, fun e he => ⟨hs, he, rfl⟩⟩
  intro r hspan
  obtain ⟨start, stop⟩ := r
  have hbounds := Span.bounds_of_within hspan
  simp only [Act.bind_meets, Act.ite_meets, Act.pure_meets, Act.hold_meets, Act.ensuring_meets,
    Act.inWorld_meets]
  constructor
  · intro hempty
    refine ⟨hs, start, stop, hspan, ?_⟩
    rw [hempty, List.take_append_drop]
  · intro _
    have hlen : s.items.length ≤ s.capacity := hs.valid.len_le
    have hshort : (s.items.take start ++ s.items.drop stop).length ≤ s.capacity := by
      simp only [List.length_append, List.length_take, List.length_drop]
      omega
    have hdrop : (s.items.drop start).drop (stop - start) = s.items.drop stop := by
      rw [List.drop_drop, Nat.add_sub_cancel' hbounds.1]
    have hsplit : w.Owns (Asset.elements ((s.items.drop start).take (stop - start)) +
        (Asset.elements (s.items.take start ++ s.items.drop stop) +
          (s.region.assets E.toShape + m))) := by
      apply hs.owns_parts.of_eq
      rw [← Asset.elements_take_add_drop start s.items, Asset.elements_append,
        ← Asset.elements_take_add_drop (stop - start) (s.items.drop start), hdrop]
      abel
    refine (E.dropAll_meets false _ hsplit).imp ?_ (fun _ _ => False.elim) ?_
    · exact fun _ w' h' => ⟨Sound.with_items hs.valid.region hshort h', start, stop, hspan, rfl⟩
    · intro f w' h'
      obtain ⟨⟨x, hx, hraise⟩, _, h'⟩ := h'
      exact ⟨hraise.isRaised.sanctioned _, Sound.with_items hs.valid.region hshort h',
        fun _ => ⟨start, stop, hspan, rfl, x, hx, hraise⟩⟩

/-! ## Elements put in the place of others -/

/-- The element at the index is handed out and the new one in its place. -/
theorem exchange_meets (index : Nat) (x : α) (hs : Sound E m (s, w)) :
    (exchange index x (s, w)).Meets (soundly E m
      ⟨fun old t => s.get index = .ok old ∧ t = { s with items := s.items.set index x },
        fun e t => s.get index = .error e ∧ t = s, fun _ _ => False⟩) := by
  simp only [exchange, Act.bind_meets, Act.held_meets, Act.ofExcept_meets, Act.hold_meets,
    Act.inWorld_meets, Act.pure_meets]
  refine ⟨fun old hold => ?_, fun e he => ⟨hs, he, rfl⟩⟩
  have hitems := Asset.elements_set (get_eq_ok_iff.mp hold) x
  apply (World.receive_meets x hs.owns_parts).of_returns
  intro _ w₁ h₁
  dsimp only
  refine (World.hand_meets old
    (m := Asset.elements (s.items.set index x) + (s.region.assets E.toShape + m))
    (h₁.of_eq ?_)).of_returns ?_
  · rw [← add_assoc, ← hitems, add_assoc]
  · have hlen : s.items.length ≤ s.capacity := hs.valid.len_le
    exact fun _ w' h' => ⟨Sound.with_items hs.valid.region (by simpa using hlen) h', hold, rfl⟩

/-- The element at the index is handed out, or the index is a fault. -/
theorem demand_meets (index : Nat) (hs : Sound E m (s, w)) :
    (demand index (s, w)).Meets (soundly E m
      ⟨fun x t => s.get index = .ok x ∧ t = s, fun _ _ => False,
        fun f t => (∃ e, s.get index = .error e) ∧ f = .indexOutOfBounds index s.len ∧ t = s⟩) := by
  simp only [demand, Act.bind_meets, Act.held_meets]
  cases s.get index with
  | ok x => exact ⟨hs, rfl, rfl⟩
  | error e => exact ⟨by intro _ check; simp, hs, fun _ => ⟨⟨e, rfl⟩, rfl, rfl⟩⟩

/-- The element is replaced, or the index is a fault. -/
theorem exchangeDemanded_meets (index : Nat) (x : α) (hs : Sound E m (s, w)) :
    (exchangeDemanded index x (s, w)).Meets (soundly E m
      ⟨fun old t => s.get index = .ok old ∧ t = { s with items := s.items.set index x },
        fun _ _ => False,
        fun f t => (∃ e, s.get index = .error e) ∧ f = .indexOutOfBounds index s.len ∧ t = s⟩) := by
  simp only [exchangeDemanded, Act.bind_meets]
  refine (demand_meets index hs).imp ?_ (fun _ _ hf => hf.2.elim) (fun _ _ => id)
  intro old u hu
  obtain ⟨hs', hold, hsame⟩ := hu
  obtain ⟨t, w'⟩ := u
  subst hsame
  refine soundly_imp (exchange_meets index x hs') (fun _ _ => id) ?_ (fun _ _ => False.elim)
  intro e t he
  cases hold.symm.trans he.1

/-- The new element is in front and the last one handed out. -/
theorem carry_meets (x : α) (hs : Sound E m (s, w)) :
    (carry x (s, w)).Meets (soundly E m
      ⟨fun last t => last = s.items.getLastD x ∧ t = { s with items := (x :: s.items).take s.len },
        fun _ _ => False, fun _ _ => False⟩) := by
  simp only [carry, Act.bind_meets, Act.held_meets, Act.hold_meets, Act.inWorld_meets,
    Act.pure_meets]
  apply (World.receive_meets x hs.owns_parts).of_returns
  intro _ w₁ h₁
  have hshifted : (x :: s.items).take s.len ++ [s.items.getLastD x] = x :: s.items := by
    rw [List.getLastD_eq_getLast?]
    cases hlast : s.items.getLast? with
    | none => simp [List.getLast?_eq_none_iff.mp hlast, len]
    | some y =>
        have hitems := List.dropLast_append_getLast? y hlast
        rw [len, ← hitems]
        simp
  have hsum := congrArg Asset.elements hshifted
  simp only [Asset.elements_append, Asset.elements_cons, Asset.elements_nil] at hsum
  dsimp only
  refine (World.hand_meets (s.items.getLastD x)
    (m := Asset.elements ((x :: s.items).take s.len) + (s.region.assets E.toShape + m))
    (h₁.of_eq ?_)).of_returns ?_
  · rw [← add_assoc, ← hsum]
    abel
  · have hlen : s.len ≤ s.capacity := hs.valid.len_le
    exact fun _ w' h' => ⟨Sound.with_items hs.valid.region
      (Nat.le_trans (by simp) hlen) h', rfl, rfl⟩

end Growable.Sequence
