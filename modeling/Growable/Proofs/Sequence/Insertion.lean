import Growable.Proofs.Sequence.Removal

/-!
# What insertion does

An insertion puts new elements between the elements before a position and those behind it, and it does
so in one of several ways: in the opening that is left when the elements behind are shifted aside, in a
larger region, or at the end, from where they are rotated into place.  `Sequence.inserted` is what all of
these come to; they differ in what a fault leaves behind.

* `pushBy_meets`, `insertBy_meets` — a single element that is made once there is room for it;
* `insertMade_meets` — some elements, where those made before a fault stay if there was room for all;
* `insertFeed_meets` — the elements of an iterator.
-/

namespace Growable

/-- The error is the one that a check came to, or a lack after the check. -/
def SequenceError.IsDueTo {β : Type} (check : Except SequenceError β) (e : SequenceError) : Prop :=
  check = .error e ∨ (∃ b, check = .ok b) ∧ e.IsLack

namespace Sequence

variable {σ α : Type} {E : Element σ α} {s : Sequence α} {w : World σ α}
  {given m : Multiset (Asset α)} {P : Nat → α → Prop} {F : Nat → Fault → Prop}

/-- The claim that `count` elements that satisfy `P` are put at a position; when making them faults after
the elements `made`, the elements `left made` are left. -/
def inserted (s : Sequence α) (position count : Nat) (P : Nat → α → Prop) (F : Nat → Fault → Prop)
    (left : List α → List α) : Post (Sequence α) Unit :=
  ⟨fun _ t => position ≤ s.len ∧ t.handle = s.handle ∧ ∃ xs, xs.length = count ∧
      Staging.Made P 0 xs ∧ t.items = s.items.take position ++ xs ++ s.items.drop position,
    fun e t => e.IsDueTo (checkPosition position s.len) ∧ t = s,
    fun f t => position ≤ s.len ∧ ∃ made, made.length < count ∧ Staging.Made P 0 made ∧
      F made.length f ∧ t = { s with items := left made }⟩

/-- A lack refuses an insertion at a position within the sequence. -/
theorem lack_isDueTo {position : Nat} {e : SequenceError} (hposition : position ≤ s.len)
    (he : e.IsLack) : e.IsDueTo (checkPosition position s.len) :=
  .inr ⟨⟨(), checkPosition_eq_ok hposition⟩, he⟩

/-! ## In a larger region -/

/-- A region with `count` new elements and the elements of `s` around them, all in custody. -/
structure Assembled (E : Element σ α) (s : Sequence α) (m : Multiset (Asset α))
    (position count : Nat) (P : Nat → α → Prop) (r : Region × List α) (w : World σ α) : Prop where
  region : r.1.Valid E.toShape
  length_le : r.2.length ≤ r.1.capacity
  items : ∃ xs, xs.length = count ∧ Staging.Made P 0 xs ∧
    r.2 = s.items.take position ++ xs ++ s.items.drop position ∧
    w.Owns (Asset.elements xs + r.1.assets E.toShape + (s.assets E + m))

/-- The new block has the old elements and the inserted ones. -/
theorem Assembled.length_eq {position count : Nat} {r : Region × List α}
    (h : Assembled E s m position count P r w) : r.2.length = s.len + count := by
  obtain ⟨xs, hlen, _, hitems, _⟩ := h.items
  rw [hitems, List.append_assoc, List.length_append, List.length_append, Nat.add_left_comm,
    ← List.length_append, List.take_append_drop, hlen, Nat.add_comm]
  rfl

/-- The new block is complete, or nothing of it is left and the sequence is as it was. -/
theorem assemble_meets {position count capacity : Nat}
    {construct : Staging α → Act (World σ α) (Staging α)}
    (hs : Sound E (given + m) (s, w)) (hposition : position ≤ s.len)
    (hconstruct : Staging.Constructs E given P F count construct)
    (hcapacity : s.len + count ≤ capacity) :
    let post := soundlyGiven E given m (inserted s position count P F fun _ => s.items)
    (Staging.assemble E s.handle.allocator capacity (s.items.take position)
      (s.items.drop position) construct w).Meets
      ⟨fun r w' => Assembled E s m position count P r w', fun e w' => post.refused e (s, w'),
        fun f w' => post.faulted f (s, w')⟩ := by
  intro post
  have hparts : (s.items.take position).length + count + (s.items.drop position).length
      = s.len + count := by
    rw [List.length_take, List.length_drop]
    change min position s.len + count + (s.len - position) = s.len + count
    omega
  have howns : w.Owns (given + (s.assets E + m)) := hs.owns.of_eq (add_left_comm _ _ _)
  apply (Staging.assemble_meets s.handle.allocator hconstruct (by omega) howns).imp
  · intro r w' hr
    obtain ⟨hregion, hroom, xs, hlen, hxs, hitems, h'⟩ := hr
    refine ⟨hregion, ?_, xs, hlen, hxs, hitems, h'⟩
    rw [hitems, List.length_append, List.length_append]
    omega
  · intro e w' he
    refine ⟨⟨hs.valid, he.2.of_eq (add_left_comm _ _ _)⟩, lack_isDueTo hposition he.1, rfl⟩
  · intro f w' hf
    obtain ⟨⟨made, hlen, hmade, hf⟩, hraised, h'⟩ := hf
    exact ⟨hraised.sanctioned _, ⟨hs.valid, h'⟩, fun _ => ⟨hposition, made, hlen, hmade, hf, rfl⟩⟩

/-- The complete block takes the place of the old one, whose elements are moved and not dropped. -/
theorem install_assembled_meets {position count : Nat} {r : Region × List α} (hs : s.Valid E)
    (hposition : position ≤ s.len) (hr : Assembled E s m position count P r w) :
    (install E r.1 r.2 (s, w)).Meets
      (soundlyGiven E given m (inserted s position count P F fun _ => s.items)) := by
  obtain ⟨xs, hlen, hxs, hitems, h⟩ := hr.items
  have howns : w.Owns (Asset.elements r.2 + r.1.assets E.toShape +
      (s.region.assets E.toShape + m)) := by
    apply h.of_eq
    rw [assets, hitems, Asset.elements_append, Asset.elements_append,
      ← Asset.elements_take_add_drop position s.items]
    abel
  refine (install_meets hs.region hr.region hr.length_le howns).imp ?_
    (fun _ _ hu => hu.2.elim) (fun _ _ hu => ⟨hu.1, hu.2.1, fun hfits => (hu.2.2 hfits).elim⟩)
  intro _ u hu
  obtain ⟨t, w'⟩ := u
  obtain ⟨hsound, ht⟩ := hu
  subst ht
  exact ⟨hsound, hposition, rfl, xs, hlen, hxs, hitems⟩

/-- A push into a full sequence assembles a block with one element behind the others. -/
theorem pushGrown_eq (make : Act (World σ α) α) :
    pushGrown E make = (do
      let s ← Act.held
      let required ← Act.ofExcept (s.required 1)
      let capacity ← Act.ofExcept (Capacity.grow s.capacity required (s.maxSize E))
      let r ← Act.inWorld do
        World.note (.growingToPush s.capacity capacity)
        Staging.assemble E s.handle.allocator capacity s.items [] (Staging.append E make)
      install E r.1 r.2) := by
  simp only [pushGrown, Staging.assemble, Staging.moveAfter_nil, pure_bind]
  rfl

/-- An insertion into a full sequence assembles a block with the elements between the others. -/
theorem insertGrown_eq (position count : Nat) (make : (Nat → Option α) → Nat → Act (World σ α) α)
    (hposition : position ≤ s.len) :
    insertGrown E position count make (s, w) = (do
      let required ← Act.ofExcept (s.required count)
      let capacity ← Act.ofExcept (Capacity.grow s.capacity required (s.maxSize E))
      let r ← Act.inWorld do
        World.note (.growingToInsert s.capacity capacity count)
        Staging.assemble E s.handle.allocator capacity (s.items.take position)
          (s.items.drop position)
          (Staging.extend E (make fun index => s.items[index]?) 0 count)
      Act.require (r.2.length = required) .length
      install E r.1 r.2 : SequenceAct σ α Unit) (s, w) := by
  have hfront : (s.items.take position).length = position := List.length_take_of_le hposition
  rw [insertGrown_eq_former]
  simp only [Staging.assemble, hfront]
  rfl

/-- A push that grows appends the element, or leaves the sequence as it was. -/
theorem pushGrown_meets {P : α → Prop} {F : Fault → Prop} {make : Act (World σ α) α}
    (hs : Sound E (given + m) (s, w)) (hmake : Act.Produces given P F make) :
    (pushGrown E make (s, w)).Meets (soundlyGiven E given m
      (inserted s s.len 1 (fun _ => P) (fun _ => F) fun _ => s.items)) := by
  have hwhole := Nat.le_refl s.len
  rw [pushGrown_eq]
  simp only [Act.bind_meets, Act.held_meets, Act.ofExcept_meets, Act.inWorld_meets]
  refine ⟨fun n hn => ⟨fun capacity hgrow => ?_, fun e he => ?_⟩, fun e he => ?_⟩
  · have hlen := required_eq_ok hn
    have hle := (Capacity.grow_bounds hgrow).1
    apply (World.note_meets _ hs.owns).of_returns
    intro _ w₁ h₁
    have hs₁ : Sound E (given + m) (s, w₁) := ⟨hs.valid, h₁⟩
    have hassemble := assemble_meets hs₁ hwhole (Staging.append_constructs hmake)
      (hlen ▸ hle)
    rw [len, List.take_length, List.drop_length] at hassemble
    refine hassemble.imp ?_ (fun _ _ => id) (fun _ _ => id)
    exact fun r w₂ hr => install_assembled_meets hs.valid hwhole hr
  · exact ⟨hs, lack_isDueTo hwhole (Capacity.eq_of_grow_eq_error he ▸ trivial), rfl⟩
  · exact ⟨hs, lack_isDueTo hwhole (required_eq_error he ▸ trivial), rfl⟩

/-- An insertion that grows has the elements at its position, or leaves the sequence as it was. -/
theorem insertGrown_meets {position count : Nat} {make : (Nat → Option α) → Nat → Act (World σ α) α}
    (hs : Sound E (given + m) (s, w)) (hposition : position ≤ s.len)
    (hconstruct : Staging.Constructs E given P F count
      (Staging.extend E (make fun index => s.items[index]?) 0 count)) :
    (insertGrown E position count make (s, w)).Meets (soundlyGiven E given m
      (inserted s position count P F fun _ => s.items)) := by
  rw [insertGrown_eq position count make hposition]
  simp only [Act.bind_meets, Act.ofExcept_meets, Act.inWorld_meets, Act.require_meets]
  refine ⟨fun n hn => ⟨fun capacity hgrow => ?_, fun e he => ?_⟩, fun e he => ?_⟩
  · have hlen := required_eq_ok hn
    have hle := (Capacity.grow_bounds hgrow).1
    apply (World.note_meets _ hs.owns).of_returns
    intro _ w₁ h₁
    have hs₁ : Sound E (given + m) (s, w₁) := ⟨hs.valid, h₁⟩
    have hassemble := assemble_meets hs₁ hposition hconstruct (hlen ▸ hle)
    refine hassemble.imp ?_ (fun _ _ => id) (fun _ _ => id)
    exact fun r w₂ hr => ⟨fun _ => install_assembled_meets hs.valid hposition hr,
      fun hbad => absurd (hr.length_eq.trans hlen.symm) hbad⟩
  · exact ⟨hs, lack_isDueTo hposition (Capacity.eq_of_grow_eq_error he ▸ trivial), rfl⟩
  · exact ⟨hs, lack_isDueTo hposition (required_eq_error he ▸ trivial), rfl⟩

/-! ## A single element -/

/-- An element that was made in the meantime takes its place while there is room. -/
theorem Sound.insert_one {position : Nat} {x : α} {w' : World σ α} (hs : s.Valid E)
    (hroom : s.len < s.capacity) (h : w'.Owns ({.element x} + (s.assets E + m))) :
    Sound E m ({ s with items := s.items.take position ++ [x] ++ s.items.drop position }, w') := by
  apply Sound.with_items hs.region _ (h.of_eq _)
  · rw [List.append_assoc, List.length_append, List.length_append, Nat.add_left_comm,
      ← List.length_append, List.take_append_drop, List.length_singleton, Nat.add_comm]
    exact hroom
  · rw [assets, ← Asset.elements_take_add_drop position s.items]
    simp only [Asset.elements_append, Asset.elements_cons, Asset.elements_nil]
    abel

/-- A push appends what is made, or leaves the sequence as it was. -/
theorem pushBy_meets {P : α → Prop} {F : Fault → Prop} {make : Act (World σ α) α}
    (hs : Sound E (given + m) (s, w)) (hmake : Act.Produces given P F make) :
    (pushBy E make (s, w)).Meets (soundlyGiven E given m
      (inserted s s.len 1 (fun _ => P) (fun _ => F) fun _ => s.items)) := by
  have hwhole := Nat.le_refl s.len
  simp only [pushBy, Act.bind_meets, Act.held_meets, Act.ite_meets, Act.inWorld_meets]
  refine ⟨fun _ => pushGrown_meets hs hmake, fun hfull => ?_⟩
  have hroom : s.len < s.capacity := Nat.lt_of_le_of_ne hs.valid.len_le hfull
  refine (hmake w _ (hs.owns.of_eq (add_left_comm _ _ _))).imp ?_ (fun _ _ => False.elim) ?_
  · intro x w' hx
    simp only [store, Act.bind_meets, Act.held_meets, Act.require_meets, Act.hold_meets]
    refine ⟨fun _ => ?_, fun hnone => absurd hroom hnone⟩
    have hitems : s.items.take s.len ++ [x] ++ s.items.drop s.len = s.items ++ [x] := by
      simp [len]
    refine ⟨?_, hwhole, rfl, [x], rfl, Staging.made_singleton hx.1, hitems.symm⟩
    have hinsert : Sound E m
        ({ s with items := s.items.take s.len ++ [x] ++ s.items.drop s.len }, w') :=
      .insert_one hs.valid hroom hx.2
    exact hitems ▸ hinsert
  · intro f w' hf
    exact ⟨hf.2.1.sanctioned _, ⟨hs.valid, hf.2.2⟩,
      fun _ => ⟨hwhole, [], Nat.zero_lt_one, Staging.made_nil, hf.1, rfl⟩⟩

/-- An insertion has what is made at its position, or leaves the sequence as it was. -/
theorem insertBy_meets {P : α → Prop} {F : Fault → Prop} {make : Act (World σ α) α}
    (position : Nat) (hs : Sound E (given + m) (s, w)) (hmake : Act.Produces given P F make) :
    (insertBy E position make (s, w)).Meets (soundlyGiven E given m
      (inserted s position 1 (fun _ => P) (fun _ => F) fun _ => s.items)) := by
  rw [insertBy_eq]
  simp only [Act.bind_meets, Act.held_meets, Act.ofExcept_meets, Act.ite_meets, Act.inWorld_meets,
    Act.require_meets, Act.hold_meets]
  refine ⟨fun _ hcheck => ?_, fun e he => ⟨hs, .inl he, rfl⟩⟩
  have hposition := le_of_checkPosition_eq_ok hcheck
  refine ⟨fun _ => ?_, fun hfull => ?_⟩
  · exact insertGrown_meets hs hposition (Staging.extend_one_constructs hmake)
  · have hroom : s.len < s.capacity := Nat.lt_of_le_of_ne hs.valid.len_le hfull
    refine (hmake w _ (hs.owns.of_eq (add_left_comm _ _ _))).imp ?_ (fun _ _ => False.elim) ?_
    · intro x w' hx
      exact ⟨fun _ => ⟨Sound.insert_one hs.valid hroom hx.2, hposition, rfl, [x], rfl,
        Staging.made_singleton hx.1, rfl⟩, fun hnone => absurd hroom hnone⟩
    · intro f w' hf
      exact ⟨hf.2.1.sanctioned _, ⟨hs.valid, hf.2.2⟩,
        fun _ => ⟨hposition, [], Nat.zero_lt_one, Staging.made_nil, hf.1, rfl⟩⟩

/-- What a closure makes is appended, and a closure that raises leaves the sequence as it was. -/
theorem pushBy_call_meets (maker : Maker α) (hs : Sound E m (s, w)) :
    (pushBy E (maker.call 0) (s, w)).Meets (soundly E m
      (inserted s s.len 1 (fun _ x => maker.onCall 0 = .ok x)
        (fun _ f => ∃ message, maker.onCall 0 = .error message ∧ f = .raised message)
        fun _ => s.items)) := by
  have hpush := pushBy_meets hs.given_zero (maker.produces 0)
  rw [soundlyGiven_zero] at hpush
  exact hpush

/-- What a closure makes is inserted, and a closure that raises leaves the sequence as it was. -/
theorem insertBy_call_meets (position : Nat) (maker : Maker α) (hs : Sound E m (s, w)) :
    (insertBy E position (maker.call 0) (s, w)).Meets (soundly E m
      (inserted s position 1 (fun _ x => maker.onCall 0 = .ok x)
        (fun _ f => ∃ message, maker.onCall 0 = .error message ∧ f = .raised message)
        fun _ => s.items)) := by
  have hinsert := insertBy_meets position hs.given_zero (maker.produces 0)
  rw [soundlyGiven_zero] at hinsert
  exact hinsert

/-- An element that could not be stored is dropped, and nothing is left of it. -/
theorem drop_refused_meets {x : α} {post : Post (Sequence α) Unit} {act : SequenceAct σ α Unit}
    (hact : (act (s, w)).Meets (soundlyGiven E {.element x} m post)) :
    ((act.onRefusal (Act.inWorld (E.drop false x))) (s, w)).Meets (soundly E m
      ⟨post.done, post.refused,
        fun f t => post.faulted f t ∨ (∃ e, post.refused e t) ∧ CanRaise (E.onDrop x) f⟩) := by
  rw [Act.onRefusal_meets]
  refine hact.imp (fun _ _ => id) ?_
    (fun f u hu => ⟨hu.1, hu.2.1, fun hfits => .inl (hu.2.2 hfits)⟩)
  intro e u hu
  obtain ⟨t, w'⟩ := u
  obtain ⟨hs, hrefused⟩ := hu
  dsimp only
  rw [Act.inWorld_meets]
  refine (E.drop_meets false x (hs.owns.of_eq (add_left_comm _ _ _))).imp ?_
    (fun _ _ => False.elim) ?_
  · exact fun _ w'' h'' => ⟨⟨hs.valid, h''⟩, hrefused⟩
  · exact fun f w'' hf => ⟨hf.1.isRaised.sanctioned _, ⟨hs.valid, hf.2.2⟩,
      fun _ => .inr ⟨⟨e, hrefused⟩, hf.1⟩⟩

/-- An element is inserted, or is dropped with the sequence as it was. -/
theorem insert_meets (position : Nat) (x : α) (hs : Sound E m (s, w)) :
    (insert E position x (s, w)).Meets (soundly E m
      ⟨fun _ t => position ≤ s.len ∧ t.handle = s.handle ∧
          t.items = s.items.take position ++ [x] ++ s.items.drop position,
        fun e t => e.IsDueTo (checkPosition position s.len) ∧ t = s,
        fun f t => CanRaise (E.onDrop x) f ∧ t = s⟩) := by
  simp only [insert, Act.bind_meets, Act.inWorld_meets]
  apply (World.receive_meets x hs.owns).of_returns
  intro _ w₁ h₁
  have hs₁ : Sound E ({.element x} + m) (s, w₁) :=
    ⟨hs.valid, h₁.of_eq (add_left_comm _ _ _)⟩
  refine soundly_imp
    (drop_refused_meets (insertBy_meets position hs₁ (Act.produces_pure x))) ?_ (fun _ _ => id) ?_
  · intro _ t ht
    obtain ⟨hposition, hhandle, xs, hlen, hxs, hitems⟩ := ht
    obtain ⟨y, rfl⟩ := List.length_eq_one_iff.mp hlen
    exact ⟨hposition, hhandle, hxs 0 y rfl ▸ hitems⟩
  · intro f t hf
    rcases hf with hmake | hdrop
    · obtain ⟨_, _, _, _, hnever, _⟩ := hmake
      exact hnever.elim
    · obtain ⟨⟨_, _, hsame⟩, hraise⟩ := hdrop
      exact ⟨hraise, hsame⟩

/-- An element is appended, or is dropped with the sequence as it was. -/
theorem push_meets (x : α) (hs : Sound E m (s, w)) :
    (push E x (s, w)).Meets (soundly E m
      ⟨fun _ t => t.handle = s.handle ∧ t.items = s.items ++ [x],
        fun e t => e.IsLack ∧ t = s, fun f t => CanRaise (E.onDrop x) f ∧ t = s⟩) := by
  simp only [push, Act.bind_meets, Act.inWorld_meets]
  apply (World.receive_meets x hs.owns).of_returns
  intro _ w₁ h₁
  have hs₁ : Sound E ({.element x} + m) (s, w₁) :=
    ⟨hs.valid, h₁.of_eq (add_left_comm _ _ _)⟩
  apply soundly_imp (drop_refused_meets (pushBy_meets hs₁ (Act.produces_pure x)))
  · intro _ t ht
    obtain ⟨_, hhandle, xs, hlen, hxs, hitems⟩ := ht
    obtain ⟨y, rfl⟩ := List.length_eq_one_iff.mp hlen
    refine ⟨hhandle, hxs 0 y rfl ▸ hitems.trans ?_⟩
    simp [len]
  · intro e t ht
    rcases ht with ⟨hdue | hlack, hsame⟩
    · cases (checkPosition_eq_ok (Nat.le_refl s.len)).symm.trans hdue
    · exact ⟨hlack.2, hsame⟩
  · intro f t hf
    rcases hf with hmake | hdrop
    · obtain ⟨_, _, _, _, hnever, _⟩ := hmake
      exact hnever.elim
    · obtain ⟨⟨_, _, hsame⟩, hraise⟩ := hdrop
      exact ⟨hraise, hsame⟩

/-! ## Several elements -/

/-- The elements shifted aside come back behind what was made, whatever happens. -/
theorem fillBetween_meets {make : Nat → Act (World σ α) α} (front back : List α) (count : Nat)
    (filled : List α)
    (hmake : ∀ j, filled.length ≤ j → j < filled.length + count → Act.Produces 0 (P j) (F j) (make j))
    (hs : s.region.Valid E.toShape) (hroom : (front ++ filled ++ back).length + count ≤ s.capacity)
    (h : w.Owns (Asset.elements (front ++ filled ++ back) + (s.region.assets E.toShape + m))) :
    (fillBetween make front back count filled (s, w)).Meets (soundly E m
      ⟨fun _ t => ∃ xs, xs.length = count ∧ Staging.Made P filled.length xs ∧
          t = { s with items := front ++ (filled ++ xs) ++ back },
        fun _ _ => False,
        fun f t => ∃ made, made.length < count ∧ Staging.Made P filled.length made ∧
          F (filled.length + made.length) f ∧ t = { s with items := front ++ (filled ++ made) ++ back }⟩) := by
  -- The sequence holds only the front meanwhile: what was made so far grows along the recursion.
  induction count generalizing filled w with
  | zero =>
      simp only [fillBetween, settle, Act.bind_meets, Act.held_meets, Act.hold_meets]
      exact ⟨Sound.with_items hs hroom h, [], rfl, Staging.made_nil, by rw [List.append_nil]⟩
  | succ count ih =>
      simp only [fillBetween, Act.bind_meets, Act.onFault_meets, Act.inWorld_meets]
      refine (hmake filled.length (Nat.le_refl _) (by omega) w _ (h.of_eq (zero_add _).symm)).imp ?_
        (fun _ _ => False.elim) ?_
      · intro x w' hx
        have hlength : (filled ++ [x]).length = filled.length + 1 := List.length_append
        have howns : w'.Owns (Asset.elements (front ++ (filled ++ [x]) ++ back) +
            (s.region.assets E.toShape + m)) := by
          apply hx.2.of_eq
          simp only [Asset.elements_append, Asset.elements_cons, Asset.elements_nil]
          abel
        refine soundly_imp (ih (filled ++ [x]) (fun j hj hlt => hmake j (by omega) (by omega))
          (by simp only [List.length_append, List.length_singleton] at hroom ⊢; omega) howns)
          ?_ (fun _ _ => id) ?_
        · intro _ t ht
          obtain ⟨xs, hlen, hxs, ht⟩ := ht
          rw [hlength] at hxs
          refine ⟨x :: xs, congrArg Nat.succ hlen, .cons hx.1 hxs, ht.trans ?_⟩
          rw [List.append_assoc filled, List.singleton_append]
        · intro f t ht
          obtain ⟨made, hlen, hmade, hf, ht⟩ := ht
          rw [hlength] at hmade hf
          refine ⟨x :: made, Nat.succ_lt_succ hlen, .cons hx.1 hmade, ?_, ht.trans ?_⟩
          · rwa [List.length_cons, ← Nat.add_assoc, Nat.add_right_comm]
          · rw [List.append_assoc filled, List.singleton_append]
      · intro f w' hf
        simp only [settle, Act.bind_meets, Act.held_meets, Act.hold_meets, Post.always]
        exact ⟨hf.2.1.sanctioned _, Sound.with_items hs (by omega) hf.2.2,
          fun _ => ⟨[], Nat.succ_pos count, Staging.made_nil, hf.1, by rw [List.append_nil]⟩⟩

/-- What a fault leaves after the elements `made`: if there was room for all of the new elements, those
made stay. -/
def interrupted (s : Sequence α) (position count : Nat) (made : List α) : List α :=
  if s.capacity < s.len + count then s.items
  else s.items.take position ++ made ++ s.items.drop position

/-- The elements made are inserted, and a fault leaves those made before it between the others. -/
theorem insertMade_meets {make : (Nat → Option α) → Nat → Act (World σ α) α} (position count : Nat)
    (hs : Sound E m (s, w))
    (hmake : ∀ k < count, Act.Produces 0 (P k) (F k) (make (fun index => s.items[index]?) k)) :
    (insertMade E position count make (s, w)).Meets (soundly E m
      (inserted s position count P F (s.interrupted position count))) := by
  rw [insertMade_eq]
  simp only [Act.bind_meets, Act.held_meets, Act.ofExcept_meets, Act.ite_meets, Act.pure_meets, Act.hold_meets]
  refine ⟨fun _ hcheck => ⟨fun hnone => ?_, fun hsome => ⟨fun n hn => ⟨fun _ _ => ⟨?_, ?_⟩, ?_⟩,
    ?_⟩⟩, fun e he => ⟨hs, .inl he, rfl⟩⟩
  all_goals have hposition := le_of_checkPosition_eq_ok hcheck
  · refine ⟨hs, hposition, rfl, [], hnone.symm, Staging.made_nil, ?_⟩
    rw [List.append_nil, List.take_append_drop]
  · intro hfull
    rw [required_eq_ok hn] at hfull
    have hgiven := hs.given_zero
    have hgrown := insertGrown_meets hgiven hposition (Staging.extend_constructs hmake)
    rw [soundlyGiven_zero] at hgrown
    refine soundly_imp hgrown (fun _ _ => id) (fun _ _ => id) ?_
    intro f t hf
    obtain ⟨_, made, hlen, hmade, hf, hsame⟩ := hf
    exact ⟨hposition, made, hlen, hmade, hf, by rw [interrupted, if_pos hfull, hsame]⟩
  · intro hroom
    rw [required_eq_ok hn] at hroom
    have hitems : s.items.take position ++ [] ++ s.items.drop position = s.items := by
      rw [List.append_nil, List.take_append_drop]
    have hlen : s.items.length + count ≤ s.capacity := Nat.le_of_not_lt hroom
    have hfill := fillBetween_meets (s := { s with items := s.items.take position })
      (s.items.take position) (s.items.drop position) count []
      (fun j _ hj => hmake j (by rwa [List.length_nil, Nat.zero_add] at hj))
      hs.valid.region (by rwa [hitems]) (by rw [hitems]; exact hs.owns_parts)
    refine soundly_imp hfill ?_ (fun _ _ => False.elim) ?_
    · intro _ t ht
      obtain ⟨xs, hlen, hxs, rfl⟩ := ht
      exact ⟨hposition, rfl, xs, hlen, hxs, rfl⟩
    · intro f t hf
      obtain ⟨made, hlen, hmade, hf, rfl⟩ := hf
      refine ⟨hposition, made, hlen, hmade, by rwa [List.length_nil, Nat.zero_add] at hf, ?_⟩
      rw [interrupted, if_neg hroom]
      rfl
  · exact fun e he =>
      ⟨hs, lack_isDueTo hposition (Capacity.eq_of_check_eq_error he ▸ trivial), rfl⟩
  · exact fun e he => ⟨hs, lack_isDueTo hposition (required_eq_error he ▸ trivial), rfl⟩

theorem insertCopies_meets (position count : Nat) (x : α) (hs : Sound E m (s, w)) :
    (insertCopies E position count x (s, w)).Meets (soundly E m
      (inserted s position count (E.ClonedFrom (List.replicate count x))
        (E.CloneFaults (List.replicate count x)) (s.interrupted position count))) := by
  refine insertMade_meets position count hs fun k hk => E.clone_nth_produces ?_
  rw [List.getElem?_replicate, if_pos hk]

theorem insertAll_meets (position : Nat) (xs : List α) (hs : Sound E m (s, w)) :
    (insertAll E position xs (s, w)).Meets (soundly E m
      (inserted s position xs.length (E.ClonedFrom xs) (E.CloneFaults xs)
        (s.interrupted position xs.length))) := by
  refine insertMade_meets position xs.length hs fun k hk => ?_
  have hsome : xs[k]? = some xs[k] := List.getElem?_eq_getElem hk
  rw [hsome]
  exact E.clone_nth_produces hsome

/-- An extension is an insertion at the end. -/
theorem extendAll_meets (xs : List α) (hs : Sound E m (s, w)) :
    (extendAll E xs (s, w)).Meets (soundly E m
      (inserted s s.len xs.length (E.ClonedFrom xs) (E.CloneFaults xs)
        (s.interrupted s.len xs.length))) :=
  insertAll_meets s.len xs hs

/-- Clones of the elements of a span are inserted, and the elements stay what they are while they move. -/
theorem insertOwn_meets (position : Nat) (span : Span) (hs : Sound E m (s, w)) :
    let post : Nat × Nat → Post (Sequence α) Unit := fun r =>
      inserted s position (r.2 - r.1) (E.ClonedFrom ((s.items.drop r.1).take (r.2 - r.1)))
        (E.CloneFaults ((s.items.drop r.1).take (r.2 - r.1)))
        (s.interrupted position (r.2 - r.1))
    (insertOwn E position span (s, w)).Meets (soundly E m
      ⟨fun b t => ∃ r, span.within s.len = .ok r ∧ (post r).done b t,
        fun e t => span.within s.len = .error e ∧ t = s ∨
          ∃ r, span.within s.len = .ok r ∧ (post r).refused e t,
        fun f t => ∃ r, span.within s.len = .ok r ∧ (post r).faulted f t⟩) := by
  intro post
  simp only [insertOwn, Act.bind_meets, Act.held_meets, Act.ofExcept_meets]
  refine ⟨fun r hspan => ?_, fun e he => ⟨hs, .inl ⟨he, rfl⟩⟩⟩
  obtain ⟨start, stop⟩ := r
  have hbounds := Span.bounds_of_within hspan
  refine soundly_imp (insertMade_meets position (stop - start) hs ?_)
    (fun _ t ht => ⟨_, hspan, ht⟩) (fun _ t ht => .inr ⟨_, hspan, ht⟩)
    (fun _ t ht => ⟨_, hspan, ht⟩)
  intro k hk
  have hlt : start + k < s.items.length := by
    have hstop : stop ≤ s.items.length := hbounds.2
    omega
  have hsome : s.items[start + k]? = some s.items[start + k] := List.getElem?_eq_getElem hlt
  dsimp only
  rw [hsome]
  apply E.clone_nth_produces
  rw [List.getElem?_take, if_pos hk, List.getElem?_drop, hsome]

/-! ## The elements of an iterator -/

/-- What an iterator gives is appended, and those appended before an error or a fault stay. -/
theorem pushFeed_meets (feed : Feed α) (hs : Sound E m (s, w)) :
    (pushFeed E feed (s, w)).Meets (soundly E m
      ⟨fun _ t => feed.raised? = none ∧ t.handle = s.handle ∧ t.items = s.items ++ feed.members,
        fun e t => e.IsLack ∧ t.handle = s.handle ∧ ∃ n, t.items = s.items ++ feed.members.take n,
        fun f t => t.handle = s.handle ∧
          ((∃ message, feed.raised? = some message ∧ f = .raised message ∧
              t.items = s.items ++ feed.members) ∨
            ∃ n, t.items = s.items ++ feed.members.take n ∧
              ∃ x ∈ feed.members, CanRaise (E.onDrop x) f)⟩) := by
  induction feed generalizing s w with
  | finish =>
      simp only [pushFeed, Act.inWorld_meets]
      apply (World.record_meets rfl rfl hs.owns).of_returns
      exact fun _ w' h' => ⟨⟨hs.valid, h'⟩, rfl, rfl, (List.append_nil _).symm⟩
  | raise message =>
      simp only [pushFeed, Act.bind_meets, Act.inWorld_meets]
      apply (World.record_meets rfl rfl hs.owns).of_returns
      intro _ w' h'
      exact ⟨Fault.IsRaised.sanctioned ⟨message, rfl⟩ _, ⟨hs.valid, h'⟩,
        fun _ => ⟨rfl, .inl ⟨message, rfl, rfl, (List.append_nil _).symm⟩⟩⟩
  | yield x rest ih =>
      simp only [pushFeed, Act.bind_meets, Act.inWorld_meets]
      apply (World.record_meets rfl rfl hs.owns).of_returns
      intro _ w' h'
      have hs' : Sound E m (s, w') := ⟨hs.valid, h'⟩
      apply (push_meets x hs').imp
      · intro _ u hu
        obtain ⟨t, w''⟩ := u
        obtain ⟨ht, hhandle, hitems⟩ := hu
        have happend : ∀ xs, s.items ++ (x :: xs) = t.items ++ xs := by
          intro xs
          rw [hitems, List.append_assoc, List.singleton_append]
        apply soundly_imp (ih ht)
        · intro _ t' ht'
          exact ⟨ht'.1, ht'.2.1.trans hhandle, ht'.2.2.trans (happend _).symm⟩
        · intro e t' ht'
          obtain ⟨hlack, hhandle', n, hn⟩ := ht'
          exact ⟨hlack, hhandle'.trans hhandle, n + 1, hn.trans (happend _).symm⟩
        · intro f t' ht'
          rcases ht' with ⟨hhandle', hraise | hdrop⟩
          · obtain ⟨message, hraised, hf, hitems'⟩ := hraise
            exact ⟨hhandle'.trans hhandle,
              .inl ⟨message, hraised, hf, hitems'.trans (happend _).symm⟩⟩
          · obtain ⟨n, hn, y, hy, hf⟩ := hdrop
            exact ⟨hhandle'.trans hhandle,
              .inr ⟨n + 1, hn.trans (happend _).symm, y, List.mem_cons_of_mem x hy, hf⟩⟩
      · intro e u hu
        obtain ⟨ht, hlack, hsame⟩ := hu
        exact ⟨ht, hlack, hsame ▸ rfl, 0, hsame ▸ (List.append_nil _).symm⟩
      · intro f u hu
        refine ⟨hu.1, hu.2.1, fun hfits => ?_⟩
        obtain ⟨hraise, hsame⟩ := hu.2.2 hfits
        exact ⟨hsame ▸ rfl, .inr ⟨0, hsame ▸ (List.append_nil _).symm, x, List.mem_cons_self, hraise⟩⟩

/-- The elements `back` come before the elements `mid`. -/
theorem rotate_meets {front mid back : List α} (hs : Sound E m (s, w))
    (hitems : s.items = front ++ mid ++ back) :
    (rotate front.length (front.length + mid.length) (s, w)).Meets (soundly E m
      ⟨fun _ t => t = { s with items := front ++ back ++ mid }, fun _ _ => False,
        fun _ _ => False⟩) := by
  have hlen : s.len = front.length + mid.length + back.length := by
    rw [len, hitems, List.length_append, List.length_append]
  have htake : s.items.take front.length = front := by
    rw [hitems, List.append_assoc, List.take_left]
  have hdrop : s.items.drop front.length = mid ++ back := by
    rw [hitems, List.append_assoc, List.drop_left]
  simp only [rotate, Act.bind_meets, Act.held_meets, Act.require_meets, Act.hold_meets, htake,
    hdrop, Nat.add_sub_cancel_left, List.drop_left, List.take_left]
  refine ⟨fun _ => ⟨?_, rfl⟩, fun hfar => absurd (by omega) hfar⟩
  have hperm : (front ++ back ++ mid).Perm s.items := by
    rw [hitems, List.append_assoc, List.append_assoc]
    exact List.perm_append_comm.append_left front
  apply Sound.with_items hs.valid.region (hperm.length_eq.trans_le hs.valid.len_le)
  rw [Asset.elements_of_perm hperm]
  exact hs.owns_parts

/-- What an iterator gives is inserted; an error takes it out again, and a fault leaves it at the
end. -/
theorem insertFeed_meets (position : Nat) (feed : Feed α) (hs : Sound E m (s, w)) :
    (insertFeed E position feed (s, w)).Meets (soundly E m
      ⟨fun _ t => position ≤ s.len ∧ feed.raised? = none ∧ t.handle = s.handle ∧
          t.items = s.items.take position ++ feed.members ++ s.items.drop position,
        fun e t => e.IsDueTo (checkPosition position s.len) ∧ t.handle = s.handle ∧
          t.items = s.items,
        fun f t => position ≤ s.len ∧ t.handle = s.handle ∧
          ((∃ message, feed.raised? = some message ∧ f = .raised message ∧
              t.items = s.items ++ feed.members) ∨
            ∃ n, t.items = s.items ++ feed.members.take n ∧
              ∃ x ∈ feed.members, CanRaise (E.onDrop x) f)⟩) := by
  simp only [insertFeed, Act.bind_meets, Act.held_meets, Act.ofExcept_meets, Act.onRefusal_meets]
  refine ⟨fun _ hcheck => ?_, fun e he => ⟨hs, .inl he, rfl, rfl⟩⟩
  have hposition := le_of_checkPosition_eq_ok hcheck
  apply (pushFeed_meets feed hs).imp
  · intro _ u hu
    obtain ⟨t, w'⟩ := u
    obtain ⟨ht, hraised, hhandle, hitems⟩ := hu
    have hfront : (s.items.take position).length = position := List.length_take_of_le hposition
    have hmiddle : position + (s.items.drop position).length = s.len := by
      rw [List.length_drop]
      exact Nat.add_sub_cancel' hposition
    have hsplit : t.items = s.items.take position ++ s.items.drop position ++ feed.members := by
      rw [hitems, List.take_append_drop]
    have hrotate := rotate_meets ht hsplit
    rw [hfront, hmiddle] at hrotate
    apply soundly_imp hrotate _ (fun _ _ => False.elim) (fun _ _ => False.elim)
    intro _ t' ht'
    subst ht'
    exact ⟨hposition, hraised, hhandle, rfl⟩
  · intro e u hu
    obtain ⟨t, w'⟩ := u
    -- The members that were pushed before memory ran out are dropped again, and a drop may fault.
    obtain ⟨ht, hlack, hhandle, n, hitems⟩ := hu
    have hback : t.items.take s.len = s.items := by
      rw [hitems, len, List.take_left]
    simp only [Act.held_meets, Act.inWorld_meets]
    apply (World.note_meets _ ht.owns).of_returns
    intro _ w'' h''
    have ht'' : Sound E m (t, w'') := ⟨ht.valid, h''⟩
    refine (truncate_meets s.len ht'').imp ?_ (fun _ _ hu => hu.2.elim) ?_
    · intro _ u hu
      exact ⟨hu.1, lack_isDueTo hposition hlack, hu.2 ▸ hhandle, hu.2 ▸ hback⟩
    · intro f u hu
      refine ⟨hu.1, hu.2.1, fun hfits => ?_⟩
      obtain ⟨hsame, x, hx, hraise⟩ := hu.2.2 hfits
      rw [hitems, len, List.drop_left] at hx
      exact ⟨hposition, hsame ▸ hhandle, .inr ⟨0, hsame ▸ hback.trans (List.append_nil _).symm,
        x, List.mem_of_mem_take hx, hraise⟩⟩
  · exact fun f u hu => ⟨hu.1, hu.2.1, fun hfits => ⟨hposition, hu.2.2 hfits⟩⟩

end Sequence

end Growable
