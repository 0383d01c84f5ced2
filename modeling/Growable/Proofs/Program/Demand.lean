import Growable.Proofs.BitSequence.Demand
import Growable.Proofs.Program.Evolution
import Growable.Proofs.Sequence.Demand

/-!
# What the operations of a program demand

Which bounds an operation is given, and how many items it needs room for, is known before it begins, unless it
consumes an iterator (`Edit.demands`, `BitEdit.demands`); so it is for a new container, unless it is read from
items (`Recipe.need`).  All of these are answered as they demand:

* `Edit.perform_answered`, `BitEdit.perform_answered` — an operation on a container;
* `Recipe.create_makes`, `Recipe.createBits_makes` — a new container.
-/

namespace Growable

open Act

variable {σ α β S : Type} {E : Element σ α} {w : World σ α}

/-! ## Sequences -/

/-- How many elements an operation needs room for, as far as that is known before it begins. -/
def Edit.need (s : Sequence α) : Edit α → Nat
  | reserve capacity => capacity
  | reserveMore additional => s.len + additional
  | push _ => s.len + 1
  | pushBy _ => s.len + 1
  | insert position _ => if position ≤ s.len then s.len + 1 else 0
  | insertBy position _ => if position ≤ s.len then s.len + 1 else 0
  | resize n _ => n
  | resizeDefault n => n
  | resizeBy n _ => n
  | insertCopies position count _ => if position ≤ s.len then s.len + count else 0
  | insertAll position xs => if position ≤ s.len then s.len + xs.length else 0
  | insertOwn position span =>
    match span.within s.len with
    | .ok (start, stop) => if position ≤ s.len then s.len + (stop - start) else 0
    | .error _ => 0
  | extendAll xs => s.len + xs.length
  | assignCopies count _ => count
  | assignAll xs => xs.length
  | _ => 0

/-- Whether the bounds that an operation is given are valid. -/
def Edit.bounds (s : Sequence α) : Edit α → Except SequenceError Unit
  | insert position _ => checkPosition position s.len
  | insertBy position _ => checkPosition position s.len
  | insertCopies position _ _ => checkPosition position s.len
  | insertAll position _ => checkPosition position s.len
  | insertOwn position span =>
    match span.within s.len with
    | .ok _ => checkPosition position s.len
    | .error e => .error e
  | insertFeed position _ => checkPosition position s.len
  | erase index => checkIndex index s.len
  | get index => checkIndex index s.len
  | exchange index _ => checkIndex index s.len
  | eraseSpan span => (span.within s.len).map fun _ => ()
  | _ => .ok ()

/-- Whether an operation that takes new room makes it by the growth policy. -/
def Edit.ahead : Edit α → Bool
  | reserveMore _ => true
  | push _ => true
  | pushBy _ => true
  | insert _ _ => true
  | insertBy _ _ => true
  | insertCopies _ _ _ => true
  | insertAll _ _ => true
  | insertOwn _ _ => true
  | insertFeed _ _ => true
  | extendAll _ => true
  | extendFeed _ => true
  | assignFeed _ => true
  | _ => false

/-- The element that an operation takes over when it begins. -/
def Edit.given : Edit α → Option α
  | push x => some x
  | insert _ x => some x
  | resize _ x => some x
  | _ => none

/-- What an operation demands. -/
def Edit.demands (s : Sequence α) (e : Edit α) : Demand := ⟨e.bounds s, e.need s, e.ahead⟩

/-- The operation makes do with what it demands when it begins: it does not consume an iterator.  Nor does it
give up room. -/
def Edit.foreseen : Edit α → Bool
  | shrink => false
  | insertFeed _ _ => false
  | extendFeed _ => false
  | assignFeed _ => false
  | _ => true

/-- A number below that of a branch takes the branch. -/
theorem lt_of_lt_ite {c : Prop} [Decidable c] {m n : Nat} (h : m < if c then n else 0) : c ∧ m < n := by
  split at h
  · exact ⟨by assumption, h⟩
  · cases h

/-- An operation that needs more than nothing is given valid bounds. -/
theorem Edit.bounds_of_need {s : Sequence α} {e : Edit α} (h : 0 < e.need s) :
    e.bounds s = .ok () ∧ e.foreseen = true := by
  cases e with
  | insert position x => exact ⟨checkPosition_eq_ok (lt_of_lt_ite h).1, rfl⟩
  | insertBy position maker => exact ⟨checkPosition_eq_ok (lt_of_lt_ite h).1, rfl⟩
  | insertCopies position count x => exact ⟨checkPosition_eq_ok (lt_of_lt_ite h).1, rfl⟩
  | insertAll position xs => exact ⟨checkPosition_eq_ok (lt_of_lt_ite h).1, rfl⟩
  | insertOwn position span =>
      simp only [need, bounds] at h ⊢
      cases hspan : span.within s.len with
      | error e =>
          rw [hspan] at h
          cases h
      | ok range =>
          rw [hspan] at h
          exact ⟨checkPosition_eq_ok (lt_of_lt_ite h).1, rfl⟩
  | reserve | reserveMore | push | pushBy | resize | resizeDefault | resizeBy | extendAll | assignCopies
  | assignAll => exact ⟨rfl, rfl⟩
  | shrink | pop | erase | truncate | clear | insertFeed | extendFeed | eraseSpan | assignFeed | get
  | exchange | demand | exchangeDemanded | carry => cases h

/-- At a position that is not valid, it does not matter how much is needed. -/
theorem Demand.Answered.positioned {K : Storage S} {s : S} {len position required : Nat} {ahead : Bool}
    {given : Option α} {o : Outcome (S × World σ α) β}
    (h : Demand.Answered K ⟨checkPosition position len, required, ahead⟩ given s w o) :
    Demand.Answered K ⟨checkPosition position len, if position ≤ len then required else 0, ahead⟩
      given s w o :=
  h.of_eq rfl (fun hbounds => if_pos (le_of_checkPosition_eq_ok hbounds)) rfl

/-- An operation on a sequence is answered as it demands. -/
theorem Edit.perform_answered {s : Sequence α} (hlen : s.len ≤ s.capacity)
    (hfits : s.capacity ≤ s.maxSize E) (e : Edit α) (he : e.foreseen = true) :
    (e.demands s).Answered (Sequence.storage E) e.given s w (e.perform E (s, w)) := by
  have hsettled : ∀ {o : Outcome (Sequence α × World σ α) (Answer α)},
      o.Meets (.settled (Sequence.storage E) s w) →
        Demand.Answered (Sequence.storage E) ⟨.ok (), 0, false⟩ none s w o :=
    Demand.answered_of_settled hfits (Nat.zero_le _)
  have hsource : ∀ (xs : List α) (k : Nat), Aside (ofOption .source xs[k]? : Act (World σ α) α) :=
    fun _ _ => aside_ofOption _ _
  cases e with
  | reserve n => exact (Sequence.reserve_answered hlen hfits n).answer
  | reserveMore n => exact (Sequence.reserveMore_answered hlen hfits n).answer
  | push x =>
      apply Demand.Answered.answer
      exact .onRefusal fun _ => Sequence.pushBy_answered hlen hfits (aside_pure x)
  | pushBy maker => exact (Sequence.pushBy_answered hlen hfits (maker.aside_call 0)).answer
  | pop => exact hsettled (Post.settled_bind Sequence.settled_pop fun _ => settles_pure _ _)
  | insert position x =>
      apply Demand.Answered.answer
      apply Demand.Answered.positioned
      exact .onRefusal fun _ => Sequence.insertBy_answered hlen hfits (aside_pure x) position
  | insertBy position maker =>
      exact (Sequence.insertBy_answered hlen hfits (maker.aside_call 0) position).positioned.answer
  | erase index => exact (Sequence.erase_answered hfits index).answer
  | truncate n => exact hsettled (Post.settled_bind (Sequence.settled_truncate n) fun _ => settles_pure _ _)
  | clear => exact hsettled (Post.settled_bind (Sequence.settled_truncate 0) fun _ => settles_pure _ _)
  | resize n x =>
      apply Demand.Answered.answer
      exact .ensuring fun _ => Sequence.resizeMade_answered hlen hfits (fun _ => E.aside_clone x) n
  | resizeDefault n =>
      exact (Sequence.resizeMade_answered hlen hfits (fun _ => E.aside_default) n).answer
  | resizeBy n maker => exact (Sequence.resizeMade_answered hlen hfits maker.aside_call n).answer
  | insertCopies position count x =>
      exact (Sequence.insertMade_answered hlen hfits (fun _ _ => E.aside_clone x) position
        count).positioned.answer
  | insertAll position xs =>
      exact (Sequence.insertMade_answered hlen hfits
        (fun _ k => E.aside_cloneFrom (hsource xs k)) position xs.length).positioned.answer
  | insertOwn position span =>
      apply Demand.Answered.answer
      simp only [demands, bounds, need]
      cases hspan : span.within s.len with
      | error e =>
          rw [Sequence.insertOwn, held_bind, hspan]
          exact .of_error (Post.rejected_refuse e s w)
      | ok range => exact (Sequence.insertOwn_answered hlen hfits hspan).positioned
  | extendAll xs =>
      have hend : checkPosition s.len s.len = .ok () := checkPosition_eq_ok (Nat.le_refl _)
      apply Demand.Answered.answer
      rw [Sequence.extendAll, held_bind]
      exact (Sequence.insertMade_answered hlen hfits
        (fun _ k => E.aside_cloneFrom (hsource xs k)) s.len xs.length).of_eq hend.symm (fun _ => rfl) rfl
  | eraseSpan span => exact (Sequence.eraseSpan_answered hfits span).answer
  | assignCopies count x =>
      exact (Sequence.assignMade_answered hlen hfits (fun _ => aside_pure x) count).answer
  | assignAll xs => exact (Sequence.assignMade_answered hlen hfits (hsource xs) xs.length).answer
  | get index =>
      rw [perform, held_bind]
      exact .ofExcept_bind (s.checkIndex_eq index) fun _ _ => hsettled ⟨rfl, .refl w⟩
  | exchange index x => exact (Sequence.exchange_answered hfits index x).answer
  | demand index => exact hsettled (Post.settled_bind (Sequence.settled_demand index) fun _ => settles_pure _ _)
  | exchangeDemanded index x =>
      exact hsettled (Post.settled_bind (Sequence.settled_exchangeDemanded index x) fun _ => settles_pure _ _)
  | carry x => exact hsettled (Post.settled_bind (Sequence.settled_carry x) fun _ => settles_pure _ _)
  | shrink | insertFeed | extendFeed | assignFeed => cases he

/-! ## Bit sequences -/

/-- How many bits an operation needs room for, as far as that is known before it begins. -/
def BitEdit.need (s : BitSequence) : BitEdit → Nat
  | reserve capacity => capacity
  | reserveMore additional => s.len + additional
  | push _ => s.len + 1
  | insert position _ => if position ≤ s.len then s.len + 1 else 0
  | resize n _ => n
  | insertCopies position count _ => if position ≤ s.len then s.len + count else 0
  | insertAll position values => if position ≤ s.len then s.len + values.length else 0
  | extendAll values => s.len + values.length
  | assignCopies count _ => count
  | assignAll values => values.length
  | _ => 0

/-- Whether the bounds that an operation is given are valid. -/
def BitEdit.bounds (s : BitSequence) : BitEdit → Except SequenceError Unit
  | insert position _ => checkPosition position s.len
  | insertCopies position _ _ => checkPosition position s.len
  | insertAll position _ => checkPosition position s.len
  | insertFeed position _ => checkPosition position s.len
  | erase index => checkIndex index s.len
  | get index => checkIndex index s.len
  | set index _ => checkIndex index s.len
  | change index _ => checkIndex index s.len
  | eraseSpan span => (span.within s.len).map fun _ => ()
  | _ => .ok ()

/-- Whether an operation that takes new room makes it by the growth policy. -/
def BitEdit.ahead : BitEdit → Bool
  | reserveMore _ => true
  | push _ => true
  | insert _ _ => true
  | insertCopies _ _ _ => true
  | insertAll _ _ => true
  | insertFeed _ _ => true
  | extendAll _ => true
  | extendFeed _ => true
  | assignFeed _ => true
  | _ => false

/-- What an operation demands. -/
def BitEdit.demands (s : BitSequence) (e : BitEdit) : Demand := ⟨e.bounds s, e.need s, e.ahead⟩

/-- The operation makes do with what it demands when it begins: it does not consume an iterator.  Nor does it
give up room. -/
def BitEdit.foreseen : BitEdit → Bool
  | shrink => false
  | insertFeed _ _ => false
  | extendFeed _ => false
  | assignFeed _ => false
  | _ => true

/-- An operation that needs more than nothing is given valid bounds. -/
theorem BitEdit.bounds_of_need {s : BitSequence} {e : BitEdit} (h : 0 < e.need s) :
    e.bounds s = .ok () ∧ e.foreseen = true := by
  cases e with
  | insert position value => exact ⟨checkPosition_eq_ok (lt_of_lt_ite h).1, rfl⟩
  | insertCopies position count value => exact ⟨checkPosition_eq_ok (lt_of_lt_ite h).1, rfl⟩
  | insertAll position values => exact ⟨checkPosition_eq_ok (lt_of_lt_ite h).1, rfl⟩
  | reserve | reserveMore | push | resize | extendAll | assignCopies | assignAll => exact ⟨rfl, rfl⟩
  | shrink | pop | erase | truncate | clear | insertFeed | extendFeed | eraseSpan | assignFeed | get
  | set | change => cases h

/-- An operation on a bit sequence is answered as it demands. -/
theorem BitEdit.perform_answered {s : BitSequence} (hlen : s.len ≤ s.capacity)
    (hfits : s.capacity ≤ s.maxSize) (e : BitEdit) (he : e.foreseen = true) :
    (e.demands s).Answered BitSequence.storage none s w (e.perform (s, w)) := by
  have hsettled : ∀ {o : Outcome (BitSequence × World σ α) (Answer α)},
      o.Meets (.settled BitSequence.storage s w) →
        Demand.Answered BitSequence.storage ⟨.ok (), 0, false⟩ none s w o :=
    Demand.answered_of_settled hfits (Nat.zero_le _)
  cases e with
  | reserve n => exact (BitSequence.reserve_answered hlen hfits n).answer
  | reserveMore n => exact (BitSequence.reserveMore_answered hfits n).answer
  | push value => exact (BitSequence.push_answered hlen hfits value).answer
  | pop => exact hsettled (Post.settled_bind (BitSequence.settles_pop s w) fun _ => settles_pure _ _)
  | insert position value =>
      exact (BitSequence.insertCopies_answered hlen hfits position 1 value).positioned.answer
  | erase index =>
      apply Demand.Answered.answer
      rw [BitSequence.erase, held_bind]
      apply BitSequence.indexed_answered hfits
      exact BitSequence.settles_of_keeps
        ((BitSequence.firm_bit _).bind fun _ => (BitSequence.firm_closeWindow _ _).bind fun _ => firm_pure _)
        fun _ _ _ => (BitSequence.keeps_bit _).bind fun _ =>
          (BitSequence.keeps_closeWindow _ _).bind fun _ => keeps_pure _
  | truncate n =>
      exact hsettled (Post.settled_bind (BitSequence.settles_truncate n s w) fun _ => settles_pure _ _)
  | clear =>
      exact hsettled (Post.settled_bind (BitSequence.settles_truncate 0 s w) fun _ => settles_pure _ _)
  | resize n value => exact (BitSequence.resize_answered hlen hfits n value).answer
  | insertCopies position count value =>
      exact (BitSequence.insertCopies_answered hlen hfits position count value).positioned.answer
  | insertAll position values =>
      exact (BitSequence.insertAll_answered hlen hfits position values).positioned.answer
  | extendAll values => exact (BitSequence.extendAll_answered hlen hfits values).answer
  | eraseSpan span => exact (BitSequence.eraseSpan_answered hfits span).answer
  | assignCopies count value => exact (BitSequence.assignCopies_answered hlen hfits count value).answer
  | assignAll values => exact (BitSequence.assignAll_answered hlen hfits values).answer
  | get index =>
      apply Demand.Answered.answer
      rw [BitSequence.get, held_bind]
      apply BitSequence.indexed_answered hfits
      exact BitSequence.settles_of_keeps (BitSequence.firm_bit _) fun _ _ _ => BitSequence.keeps_bit _
  | set index value =>
      apply Demand.Answered.answer
      rw [BitSequence.set, held_bind]
      apply BitSequence.indexed_answered hfits
      exact BitSequence.settles_of_keeps (BitSequence.firm_changeBit _ _) fun _ _ _ =>
        BitSequence.keeps_changeBit _ _
  | change index changes =>
      apply Demand.Answered.answer
      rw [BitSequence.change, held_bind]
      apply BitSequence.indexed_answered hfits
      exact BitSequence.settles_of_keeps (BitSequence.firm_changeBits _ _) fun _ _ _ =>
        BitSequence.keeps_changeBits _ _
  | shrink | insertFeed | extendFeed | assignFeed => cases he

/-! ## What exceeds the maximum size -/

/-- An operation that needs more than the handle admits is refused before anything is requested. -/
theorem Edit.perform_exceeding {s : Sequence α} (hlen : s.len ≤ s.capacity)
    (hfits : s.capacity ≤ s.maxSize E) (e : Edit α) (hmax : s.maxSize E < e.need s) :
    (e.perform E (s, w)).Meets (.rejected .capacityExceeded [] e.given s w) := by
  obtain ⟨hbounds, he⟩ := Edit.bounds_of_need (Nat.zero_lt_of_lt hmax)
  exact (e.perform_answered hlen hfits he).exceeding hbounds hmax

/-- The same holds for a bit sequence, where no argument is given up. -/
theorem BitEdit.perform_exceeding {s : BitSequence} (hlen : s.len ≤ s.capacity)
    (hfits : s.capacity ≤ s.maxSize) (e : BitEdit) (hmax : s.maxSize < e.need s) :
    (e.perform (s, w)).Meets (.rejected .capacityExceeded [] none s w) := by
  obtain ⟨hbounds, he⟩ := BitEdit.bounds_of_need (Nat.zero_lt_of_lt hmax)
  exact (e.perform_answered hlen hfits he).exceeding hbounds hmax

/-- Clones for which there is no room in the place of the old contents. -/
theorem Sequence.copyFrom_exceeding {s t : Sequence α} (hlen : s.len ≤ s.capacity)
    (hfits : s.capacity ≤ s.maxSize E) (hown : ¬ s.handle.Foreign t.handle)
    (hmax : s.maxSize E < t.len) :
    (copyFrom E t (s, w)).Meets (.rejected .capacityExceeded [] none s w) := by
  have hassigned : (assignAll E t.items (s, w)).Meets (.rejected .capacityExceeded [] none s w) :=
    (assignMade_answered hlen hfits (fun _ => aside_ofOption _ _) t.items.length).exceeding rfl hmax
  apply bind_meets.mpr
  apply held_meets.mpr
  simp only [ite_meets, Bool.and_eq_true, Bool.not_eq_true']
  exact ⟨fun hforeign => absurd hforeign hown, fun _ => Post.rejected_bind hassigned⟩

/-- A copy longer than the handle admits is refused, unless its handle comes with it. -/
theorem BitSequence.copyFrom_exceeding {s t : BitSequence} (hlen : s.len ≤ s.capacity)
    (hfits : s.capacity ≤ s.maxSize) (hown : ¬ s.handle.Foreign t.handle) (hmax : s.maxSize < t.len) :
    (copyFrom t (s, w)).Meets (.rejected .capacityExceeded [] none s w) := by
  have hreserved : (reserve t.len (s, w)).Meets (.rejected .capacityExceeded [] none s w) :=
    (reserve_answered hlen hfits t.len).exceeding rfl hmax
  apply bind_meets.mpr
  apply held_meets.mpr
  simp only [ite_meets, Bool.and_eq_true, Bool.not_eq_true']
  exact ⟨fun hforeign => absurd hforeign hown, fun _ => Post.rejected_bind hreserved⟩

/-! ## New containers -/

/-- How many members a recipe needs room for, as far as that is known before it begins. -/
def Recipe.need {γ : Type} : Recipe γ → Nat
  | withCapacity capacity => capacity
  | replicate count _ => count
  | ofList xs => xs.length
  | _ => 0

/-- What is made is put together from what is there, and not read from items. -/
def Recipe.foreseen {γ : Type} : Recipe γ → Bool
  | read _ _ => false
  | _ => true

/-- Only a recipe whose length is known needs something from the start. -/
theorem Recipe.foreseen_of_need {γ : Type} {recipe : Recipe γ} (h : 0 < recipe.need) :
    recipe.foreseen = true := by
  cases recipe <;> first | rfl | cases h

/-- A new sequence is given the room that it is to have. -/
theorem Recipe.create_makes (hfits : E.toShape.Fits) (recipe : Recipe α) (handle : Handle)
    (hr : recipe.foreseen = true) :
    (Sequence.storage E).Makes (.empty handle) recipe.need id w (recipe.create E handle w) := by
  cases recipe with
  | empty =>
      refine ⟨fun hmax => absurd hmax (Nat.not_lt_zero _), fun _ _ => ?_⟩
      exact ⟨⟨_, rfl, rfl⟩, World.served_of_evolves (.refl w)⟩
  | withCapacity n => exact (Sequence.withCapacity_makes hfits n handle).answer fun _ => rfl
  | replicate count x => exact (Sequence.replicate_makes count x handle).answer fun _ => rfl
  | ofList xs => exact (Sequence.ofList_makes hfits xs handle).answer fun _ => rfl
  | read => cases hr

/-- A new bit sequence is given the room that it is to have. -/
theorem Recipe.createBits_makes (recipe : Recipe Bool) (handle : Handle)
    (hr : recipe.foreseen = true) :
    BitSequence.storage.Makes (.empty handle) recipe.need id w (recipe.createBits handle w) := by
  cases recipe with
  | empty =>
      refine ⟨fun hmax => absurd hmax (Nat.not_lt_zero _), fun _ _ => ?_⟩
      exact ⟨⟨_, rfl, rfl⟩, World.served_of_evolves (.refl w)⟩
  | withCapacity n => exact (BitSequence.withCapacity_makes n handle).answer fun _ => rfl
  | replicate count value => exact (BitSequence.replicate_makes count value handle).answer fun _ => rfl
  | ofList values => exact (BitSequence.ofList_makes values handle).answer fun _ => rfl
  | read => cases hr

end Growable
