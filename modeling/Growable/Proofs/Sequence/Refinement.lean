import Growable.Proofs.Sequence.Transfer

/-!
# Sequences of well-behaved elements

Elements are `Faithful` when their code raises no fault and a clone is equal to what it was made from.
Then a sequence does what a plain list does: each operation follows the operation on plain lists of the
same name, in place or in a new region.  Closures and iterators may still fault.
-/

namespace Growable

variable {σ α β : Type} {E : Element σ α}

/-- A clone is equal to what it was made from, and so is an element that one has overwritten. -/
structure Element.Exact (E : Element σ α) : Prop where
  clone : ∀ {x y}, CanYield (E.onClone x) y → y = x
  overwrite : ∀ {old x y}, CanYield (E.onOverwrite old x) y → y = x

namespace Element.Exact

variable (hE : E.Exact)
include hE

/-- Clones of some elements are these elements. -/
theorem cloned_eq {xs ys : List α} (h : Staging.Made (E.ClonedFrom ys) 0 xs)
    (hlen : xs.length = ys.length) : xs = ys := by
  apply List.ext_getElem hlen
  intro i hi hi'
  obtain ⟨y, hy, hclone⟩ := h i xs[i] (List.getElem?_eq_getElem hi)
  rw [Nat.zero_add, List.getElem?_eq_getElem hi'] at hy
  cases hy
  exact hE.clone hclone

/-- Elements that were replaced by clones of others are these others. -/
theorem replaced_eq {olds xs ys : List α} (h : Staging.Made (E.Replaced olds ys) 0 xs)
    (hlen : xs.length = ys.length) : xs = ys := by
  apply List.ext_getElem hlen
  intro i hi hi'
  obtain ⟨y, hy, hmade⟩ := h i xs[i] (List.getElem?_eq_getElem hi)
  rw [Nat.zero_add, List.getElem?_eq_getElem hi'] at hy
  cases hy
  split at hmade
  · exact hE.overwrite hmade
  · exact hE.clone hmade

/-- Clones of a single element are copies of it. -/
theorem cloned_eq_replicate {x : α} {xs : List α}
    (h : Staging.Made (fun _ => CanYield (E.onClone x)) 0 xs) : xs = List.replicate xs.length x := by
  apply List.eq_replicate_of_mem
  intro y hy
  obtain ⟨i, hi⟩ := List.mem_iff_getElem?.mp hy
  exact hE.clone (h i y hi)

end Element.Exact

/-- The type has a possible layout, its code raises no fault, and a clone is equal to its source. -/
structure Element.Faithful (E : Element σ α) : Prop where
  fits : E.toShape.Fits
  clone : ∀ x c, (E.onClone x c).1 = .ok x
  overwrite : ∀ old x c, (E.onOverwrite old x c).1 = .ok x
  default : ∀ c, ∃ x, (E.onDefault c).1 = .ok x
  drop : ∀ x c, (E.onDrop x c).1 = .ok ()

/-- Plain elements are faithful, as they have no code of their own. -/
theorem Element.faithful_plain {shape : Shape} (hshape : shape.Fits) (default : α) :
    (Element.plain shape default).Faithful :=
  ⟨hshape, fun _ _ => rfl, fun _ _ _ => rfl, fun _ => ⟨default, rfl⟩, fun _ _ => rfl⟩

namespace Element.Faithful

variable (hE : E.Faithful)
include hE

/-- A faithful element is dropped without a fault. -/
theorem not_drop {x : α} {f : Fault} : ¬ CanRaise (E.onDrop x) f := by
  intro ⟨c, message, hraise, _⟩
  cases (hE.drop x c).symm.trans hraise

/-- A faithful element is cloned without a fault. -/
theorem not_clone {x : α} {f : Fault} : ¬ CanRaise (E.onClone x) f := by
  intro ⟨c, message, hraise, _⟩
  cases (hE.clone x c).symm.trans hraise

/-- A faithful element is cloned over without a fault. -/
theorem not_overwrite {old x : α} {f : Fault} : ¬ CanRaise (E.onOverwrite old x) f := by
  intro ⟨c, message, hraise, _⟩
  cases (hE.overwrite old x c).symm.trans hraise

/-- A faithful default is made without a fault. -/
theorem not_default {f : Fault} : ¬ CanRaise E.onDefault f := by
  intro ⟨c, message, hraise, _⟩
  obtain ⟨x, hx⟩ := hE.default c
  cases hx.symm.trans hraise

/-- A list of faithful elements is cloned without a fault. -/
theorem not_cloneFaults {ys : List α} {k : Nat} {f : Fault} : ¬ E.CloneFaults ys k f := by
  intro ⟨y, _, hraise⟩
  exact hE.not_clone hraise

/-- A list of faithful elements is replaced without a fault. -/
theorem not_replaceFaults {olds ys : List α} {k : Nat} {f : Fault} :
    ¬ E.ReplaceFaults olds ys k f := by
  intro ⟨y, _, hraise⟩
  split at hraise
  · exact hE.not_overwrite hraise
  · exact hE.not_clone hraise

/-- A clone of a faithful element is that element. -/
theorem exact : E.Exact where
  clone := fun ⟨c, hc⟩ => (Except.ok.inj ((hE.clone _ c).symm.trans hc)).symm
  overwrite := fun ⟨c, hc⟩ => (Except.ok.inj ((hE.overwrite _ _ c).symm.trans hc)).symm

end Element.Faithful

/-! ## Closures -/

/-- What a closure returns for `count` calls, numbered from `k`, unless it faults. -/
def Maker.calls (maker : Maker α) (k : Nat) : Nat → Except String (List α)
  | 0 => .ok []
  | count + 1 => do
    let x ← maker.onCall k
    return x :: (← maker.calls (k + 1) count)

/-- Calls that each made an element have made the list. -/
theorem Maker.calls_of_made {maker : Maker α} {k : Nat} {xs : List α}
    (h : Staging.Made (fun i x => maker.onCall i = .ok x) k xs) :
    maker.calls k xs.length = .ok xs := by
  induction xs generalizing k with
  | nil => rfl
  | cons x rest ih =>
      rw [List.length_cons, calls, h.head, ih h.tail]
      rfl

/-- The first call that raised gives its message to the whole. -/
theorem Maker.calls_of_fault {maker : Maker α} {k count : Nat} {made : List α} {message : String}
    (h : Staging.Made (fun i x => maker.onCall i = .ok x) k made) (hlt : made.length < count)
    (hf : maker.onCall (k + made.length) = .error message) :
    maker.calls k count = .error message := by
  induction made generalizing k count with
  | nil =>
      obtain ⟨n, rfl⟩ := Nat.exists_eq_succ_of_ne_zero (Nat.ne_zero_of_lt hlt)
      rw [calls]
      rw [List.length_nil, Nat.add_zero] at hf
      rw [hf]
      rfl
  | cons x rest ih =>
      obtain ⟨n, rfl⟩ := Nat.exists_eq_succ_of_ne_zero (Nat.ne_zero_of_lt hlt)
      rw [List.length_cons, Nat.add_left_comm, Nat.add_comm rest.length] at hf
      rw [calls, h.head, ih h.tail (Nat.lt_of_succ_lt_succ hlt) hf]
      rfl

/-! ## Operations -/

namespace Sequence

variable {s : Sequence α} {w : World σ α} {m : Multiset (Asset α)}
  {o : Outcome (Sequence α × World σ α) β}

/-- The claim that the elements of `s` come to be what an operation on lists makes of them; they stay as
they are when there is a lack of memory. -/
def follows (s : Sequence α) (act : ListAct α β) : Post (Sequence α × World σ α) β :=
  refining (fun u => u.1.items) (act s.items) (· = s.items)

/-- The same of an operation that needs no memory. -/
def mirrors (s : Sequence α) (act : ListAct α β) : Post (Sequence α × World σ α) β :=
  refining (fun u => u.1.items) (act s.items) fun _ => False

/-- An act in custody mirrors an act on lists if each of its endings is one of that act. -/
theorem mirrors_of_soundly {post : Post (Sequence α) β} {act : ListAct α β} (hE : E.Faithful)
    (h : o.Meets (soundly E m post)) (hdone : ∀ b t, post.done b t → act s.items = .done b t.items)
    (hrefused : ∀ e t, post.refused e t → act s.items = .refused e t.items)
    (hfaulted : ∀ f t, post.faulted f t → act s.items = .faulted f t.items) :
    o.Meets (mirrors s act) := by
  apply h.imp
  · exact fun b u hu => hdone b u.1 hu.2
  · exact fun e u hu => .inl (hrefused e u.1 hu.2)
  · exact fun f u hu => hfaulted f u.1 (hu.2.2 hE.fits)

/-- An act in custody follows an act on lists if it may besides be refused for lack of room. -/
theorem follows_of_soundly {post : Post (Sequence α) β} {act : ListAct α β} (hE : E.Faithful)
    (h : o.Meets (soundly E m post)) (hdone : ∀ b t, post.done b t → act s.items = .done b t.items)
    (hrefused : ∀ e t, post.refused e t →
      (act s.items = .refused e s.items ∨ e.IsLack ∧ (act s.items).Accepted) ∧ t.items = s.items)
    (hfaulted : ∀ f t, post.faulted f t → act s.items = .faulted f t.items) :
    o.Meets (follows s act) := by
  apply h.imp
  · exact fun b u hu => hdone b u.1 hu.2
  · intro e u hu
    rcases hrefused e u.1 hu.2 with ⟨hrefused | ⟨hlack, haccepted⟩, hsame⟩
    · exact .inl (hrefused.trans (congrArg _ hsame.symm))
    · exact .inr ⟨hlack, haccepted, hsame⟩
  · exact fun f u hu => hfaulted f u.1 (hu.2.2 hE.fits)

/-- A list that is done is not refused, so that only a lack is left. -/
theorem lack_of_done {act : ListAct α β} {e : SequenceError} {b : β} {ys : List α}
    (hact : act s.items = .done b ys) (he : e.IsLack) :
    act s.items = .refused e s.items ∨ e.IsLack ∧ (act s.items).Accepted :=
  .inr ⟨he, hact ▸ Outcome.accepted_done b ys⟩

/-- A change of the capacity alone changes nothing in the list. -/
theorem resized_follows {room : Nat → Prop} {o : Outcome (Sequence α × World σ α) Unit}
    (hE : E.Faithful) (h : o.Meets (soundly E m (resized s room))) :
    o.Meets (follows s (pure ())) := by
  apply follows_of_soundly hE h
  · exact fun b t ht => congrArg _ ht.1.symm
  · exact fun e t ht => ⟨lack_of_done rfl ht.1, congrArg items ht.2⟩
  · exact fun _ _ => False.elim

/-! ### At a position -/

/-- A refusal is for the position or for lack of room, and the list would have refused the position
too. -/
theorem refused_of_isDueTo {position : Nat} {e : SequenceError} {act : ListAct α β}
    (he : e.IsDueTo (checkPosition position s.len))
    (hfar : ¬ position ≤ s.len → act s.items = .refused (.outOfBounds position s.len) s.items)
    (hnear : position ≤ s.len → (act s.items).Accepted) :
    act s.items = .refused e s.items ∨ e.IsLack ∧ (act s.items).Accepted := by
  rcases he with hcheck | ⟨⟨_, hcheck⟩, hlack⟩
  · obtain ⟨hpast, rfl⟩ := checkPosition_eq_error hcheck
    exact .inl (hfar hpast)
  · exact .inr ⟨hlack, hnear (le_of_checkPosition_eq_ok hcheck)⟩

/-- New elements that can only be `ys`, and are made without a fault. -/
theorem inserted_follows {position count : Nat} {P : Nat → α → Prop} {F : Nat → Fault → Prop}
    {left : List α → List α} {ys : List α} {o : Outcome (Sequence α × World σ α) Unit}
    (hE : E.Faithful) (h : o.Meets (soundly E m (inserted s position count P F left)))
    (hP : ∀ xs, xs.length = count → Staging.Made P 0 xs → xs = ys) (hF : ∀ k f, ¬ F k f) :
    o.Meets (follows s (ListAct.insertAll position ys)) := by
  apply follows_of_soundly hE h
  · intro _ t ht
    obtain ⟨hposition, _, xs, hlen, hxs, hitems⟩ := ht
    rw [ListAct.insertAll_of_le hposition, hitems, hP xs hlen hxs]
  · intro e t ht
    refine ⟨refused_of_isDueTo ht.1 (fun hfar => ListAct.insertAll_of_gt hfar ys) ?_,
      congrArg items ht.2⟩
    intro hposition
    rw [ListAct.insertAll_of_le hposition]
    exact Outcome.accepted_done _ _
  · intro f t ht
    obtain ⟨_, made, _, _, hfault, _⟩ := ht
    exact absurd hfault (hF _ _)

/-- To insert faithful elements is to insert the list. -/
theorem insertAll_follows (position : Nat) (xs : List α) (hE : E.Faithful)
    (hs : Sound E m (s, w)) :
    (insertAll E position xs (s, w)).Meets (follows s (ListAct.insertAll position xs)) :=
  inserted_follows hE (insertAll_meets position xs hs) (fun _ hlen hys => hE.exact.cloned_eq hys hlen)
    fun _ _ => hE.not_cloneFaults

/-- To insert copies is to insert the list of copies. -/
theorem insertCopies_follows (position count : Nat) (x : α) (hE : E.Faithful)
    (hs : Sound E m (s, w)) :
    (insertCopies E position count x (s, w)).Meets
      (follows s (ListAct.insertAll position (List.replicate count x))) := by
  apply inserted_follows hE (insertCopies_meets position count x hs)
  · intro xs hlen hxs
    exact hE.exact.cloned_eq hxs (hlen.trans List.length_replicate.symm)
  · exact fun _ _ => hE.not_cloneFaults

/-- To extend by faithful elements is to append the list. -/
theorem extendAll_follows (xs : List α) (hE : E.Faithful) (hs : Sound E m (s, w)) :
    (extendAll E xs (s, w)).Meets (follows s (ListAct.append xs)) := by
  have hinsert := insertAll_follows s.len xs hE hs
  rw [follows, len, ListAct.insertAll_length] at hinsert
  exact hinsert

/-- To insert an element is to insert a list of one. -/
theorem insert_follows (position : Nat) (x : α) (hE : E.Faithful) (hs : Sound E m (s, w)) :
    (insert E position x (s, w)).Meets (follows s (ListAct.insertAll position [x])) := by
  apply follows_of_soundly hE (insert_meets position x hs)
  · intro _ t ht
    rw [ListAct.insertAll_of_le ht.1, ht.2.2]
  · intro e t ht
    refine ⟨refused_of_isDueTo ht.1 (fun hfar => ListAct.insertAll_of_gt hfar [x]) ?_,
      congrArg items ht.2⟩
    intro hposition
    rw [ListAct.insertAll_of_le hposition]
    exact Outcome.accepted_done _ _
  · exact fun f t ht => absurd ht.1 hE.not_drop

/-- To push an element is to append a list of one. -/
theorem push_follows (x : α) (hE : E.Faithful) (hs : Sound E m (s, w)) :
    (push E x (s, w)).Meets (follows s (ListAct.append [x])) := by
  apply follows_of_soundly hE (push_meets x hs)
  · exact fun _ t ht => congrArg _ ht.2.symm
  · exact fun e t ht => ⟨lack_of_done rfl ht.1, congrArg items ht.2⟩
  · exact fun f t ht => absurd ht.1 hE.not_drop

/-- What a closure returns is put at a position; a fault of the closure leaves the sequence as it was. -/
theorem insertBy_follows (position : Nat) (maker : Maker α) (hE : E.Faithful)
    (hs : Sound E m (s, w)) :
    (insertBy E position (maker.call 0) (s, w)).Meets
      (follows s (ListAct.insertBy position (maker.calls 0 1))) := by
  have hnear : position ≤ s.len → ListAct.insertBy position (maker.calls 0 1) s.items
      = ListAct.called (maker.calls 0 1) (ListAct.insertAll position) s.items := fun h => if_pos h
  apply follows_of_soundly hE (insertBy_call_meets position maker hs)
  · intro _ t ht
    obtain ⟨hposition, _, xs, hlen, hxs, hitems⟩ := ht
    obtain ⟨x, rfl⟩ := List.length_eq_one_iff.mp hlen
    have hx : maker.calls 0 1 = .ok [x] := Maker.calls_of_made (Staging.made_singleton hxs.head)
    rw [hnear hposition, hx, hitems]
    exact ListAct.insertAll_of_le hposition [x]
  · intro e t ht
    refine ⟨refused_of_isDueTo ht.1 (fun hfar => if_neg hfar) fun hposition => ?_,
      congrArg items ht.2⟩
    rw [hnear hposition]
    cases maker.calls 0 1 with
    | ok ys =>
        rw [ListAct.called, ListAct.insertAll_of_le hposition]
        exact Outcome.accepted_done _ _
    | error message => exact Outcome.accepted_faulted _ _
  · intro f t ht
    obtain ⟨hposition, made, _, _, ⟨message, hfault, rfl⟩, hsame⟩ := ht
    have hcalls : maker.calls 0 1 = .error message :=
      Maker.calls_of_fault Staging.made_nil Nat.zero_lt_one hfault
    rw [hnear hposition, hcalls, hsame]
    rfl

/-- To push what a closure makes is to append it, and what the closure raises ends the act. -/
theorem pushBy_follows (maker : Maker α) (hE : E.Faithful) (hs : Sound E m (s, w)) :
    (pushBy E (maker.call 0) (s, w)).Meets
      (follows s (ListAct.called (maker.calls 0 1) ListAct.append)) := by
  apply follows_of_soundly hE (pushBy_call_meets maker hs)
  · intro _ t ht
    obtain ⟨_, _, xs, hlen, hxs, hitems⟩ := ht
    obtain ⟨x, rfl⟩ := List.length_eq_one_iff.mp hlen
    have hx : maker.calls 0 1 = .ok [x] := Maker.calls_of_made (Staging.made_singleton hxs.head)
    rw [hx, hitems, len, List.take_length, List.drop_length, List.append_nil]
    rfl
  · intro e t ht
    rcases ht with ⟨hcheck | ⟨_, hlack⟩, hsame⟩
    · cases (checkPosition_eq_ok (Nat.le_refl s.len)).symm.trans hcheck
    · refine ⟨.inr ⟨hlack, ?_⟩, congrArg items hsame⟩
      cases maker.calls 0 1 with
      | ok ys => exact Outcome.accepted_done _ _
      | error message => exact Outcome.accepted_faulted _ _
  · intro f t ht
    obtain ⟨_, made, _, _, ⟨message, hfault, rfl⟩, hsame⟩ := ht
    have hcalls : maker.calls 0 1 = .error message :=
      Maker.calls_of_fault Staging.made_nil Nat.zero_lt_one hfault
    rw [hcalls, hsame]
    rfl

/-! ### At an index -/

/-- An index without an element is refused with that index and the length. -/
theorem get_eq_error {index : Nat} {e : SequenceError} (h : s.get index = .error e) :
    s.items[index]? = none ∧ e = .outOfBounds index s.items.length := by
  unfold get at h
  split at h
  · cases h
  · rename_i hnone
    exact ⟨hnone, (Except.error.inj h).symm⟩

/-- To get an element is to pick it from the list. -/
theorem get_follows (index : Nat) :
    ((do
      let s ← Act.held
      Act.ofExcept (s.get index) : SequenceAct σ α α) (s, w)).Meets
        (mirrors s (ListAct.pick index)) := by
  simp only [Act.bind_meets, Act.held_meets, Act.ofExcept_meets]
  constructor
  · exact fun x hx => ListAct.pick_of_some (get_eq_ok_iff.mp hx)
  · intro e he
    obtain ⟨hnone, rfl⟩ := get_eq_error he
    exact .inl (ListAct.pick_of_none hnone)

/-- To remove an element is to erase it from the list. -/
theorem erase_follows (index : Nat) (hE : E.Faithful) (hs : Sound E m (s, w)) :
    (erase index (s, w)).Meets (mirrors s (ListAct.erase index)) := by
  apply mirrors_of_soundly hE (erase_meets index hs)
  · intro x t ht
    obtain ⟨hx, rfl⟩ := ht
    exact ListAct.erase_of_some (get_eq_ok_iff.mp hx)
  · intro e t ht
    obtain ⟨he, rfl⟩ := ht
    obtain ⟨hnone, rfl⟩ := get_eq_error he
    exact ListAct.erase_of_none hnone
  · exact fun _ _ => False.elim

/-- To replace an element is to exchange it in the list. -/
theorem exchange_follows (index : Nat) (x : α) (hE : E.Faithful) (hs : Sound E m (s, w)) :
    (exchange index x (s, w)).Meets (mirrors s (ListAct.exchange index x)) := by
  apply mirrors_of_soundly hE (exchange_meets index x hs)
  · intro old t ht
    obtain ⟨hold, rfl⟩ := ht
    exact ListAct.exchange_of_some (get_eq_ok_iff.mp hold) x
  · intro e t ht
    obtain ⟨he, rfl⟩ := ht
    obtain ⟨hnone, rfl⟩ := get_eq_error he
    exact ListAct.exchange_of_none hnone x
  · exact fun _ _ => False.elim

/-- To index is to demand the element of the list. -/
theorem demand_follows (index : Nat) (hE : E.Faithful) (hs : Sound E m (s, w)) :
    (demand index (s, w)).Meets (mirrors s (ListAct.demand index)) := by
  apply mirrors_of_soundly hE (demand_meets index hs)
  · intro x t ht
    obtain ⟨hx, rfl⟩ := ht
    exact ListAct.demand_of_some (get_eq_ok_iff.mp hx)
  · exact fun _ _ => False.elim
  · intro f t ht
    obtain ⟨⟨e, he⟩, rfl, rfl⟩ := ht
    exact ListAct.demand_of_none (get_eq_error he).1

/-- To assign to an index is to exchange the element of the list, or to fault. -/
theorem exchangeDemanded_follows (index : Nat) (x : α) (hE : E.Faithful)
    (hs : Sound E m (s, w)) :
    (exchangeDemanded index x (s, w)).Meets (mirrors s (ListAct.exchangeDemanded index x)) := by
  apply mirrors_of_soundly hE (exchangeDemanded_meets index x hs)
  · intro old t ht
    obtain ⟨hold, rfl⟩ := ht
    exact Act.bind_of_done (ListAct.demand_of_some (get_eq_ok_iff.mp hold))
  · exact fun _ _ => False.elim
  · intro f t ht
    obtain ⟨⟨e, he⟩, rfl, rfl⟩ := ht
    exact Act.bind_of_faulted (ListAct.demand_of_none (get_eq_error he).1)

/-- To hand an element in and another out is to shift the list. -/
theorem carry_follows (x : α) (hE : E.Faithful) (hs : Sound E m (s, w)) :
    (carry x (s, w)).Meets (mirrors s (ListAct.carry x)) := by
  apply mirrors_of_soundly hE (carry_meets x hs)
  · intro last t ht
    obtain ⟨rfl, rfl⟩ := ht
    rfl
  · exact fun _ _ => False.elim
  · exact fun _ _ => False.elim

/-! ### Fewer elements -/

/-- To remove the last element is to pop the list. -/
theorem pop_follows (hE : E.Faithful) (hs : Sound E m (s, w)) :
    (pop (s, w)).Meets (mirrors s ListAct.pop) := by
  apply mirrors_of_soundly hE (pop_meets hs)
  · intro x t ht
    obtain ⟨rfl, rfl⟩ := ht
    rfl
  · exact fun _ _ => False.elim
  · exact fun _ _ => False.elim

/-- To lower the length is to truncate the list. -/
theorem truncate_follows (n : Nat) (hE : E.Faithful) (hs : Sound E m (s, w)) :
    (truncate E n (s, w)).Meets (mirrors s (ListAct.truncate n)) := by
  apply mirrors_of_soundly hE (truncate_meets n hs)
  · intro _ t ht
    rw [ht]
    rfl
  · exact fun _ _ => False.elim
  · intro f t ht
    obtain ⟨_, x, _, hraise⟩ := ht
    exact absurd hraise hE.not_drop

/-- To remove a span is to cut it out of the list. -/
theorem eraseSpan_follows (span : Span) (hE : E.Faithful) (hs : Sound E m (s, w)) :
    (eraseSpan E span (s, w)).Meets (mirrors s (ListAct.eraseSpan span)) := by
  apply mirrors_of_soundly hE (eraseSpan_meets span hs)
  · intro _ t ht
    obtain ⟨start, stop, hspan, rfl⟩ := ht
    exact ListAct.eraseSpan_of_ok hspan
  · intro e t ht
    obtain ⟨he, rfl⟩ := ht
    exact ListAct.eraseSpan_of_error he
  · intro f t ht
    obtain ⟨_, _, _, _, x, _, hraise⟩ := ht
    exact absurd hraise hE.not_drop

/-! ### A length to reach -/

/-- New elements at the end, where `act` says what becomes of them. -/
theorem lengthened_follows {n : Nat} {P : Nat → α → Prop} {F : Nat → Fault → Prop}
    {act : ListAct α Unit} {o : Outcome (Sequence α × World σ α) Unit} (hE : E.Faithful)
    (h : o.Meets (soundly E m (s.lengthened E n P F))) (haccepted : (act s.items).Accepted)
    (hdone : ∀ xs, xs.length = n - s.len → Staging.Made P 0 xs →
      act s.items = .done () (s.items.take n ++ xs))
    (hfaulted : ∀ made f, made.length < n - s.len → Staging.Made P 0 made → F made.length f →
      act s.items = .faulted f s.items) : o.Meets (follows s act) := by
  apply follows_of_soundly hE h
  · intro _ t ht
    obtain ⟨_, xs, hlen, hxs, hitems⟩ := ht
    rw [hdone xs hlen hxs, hitems]
  · exact fun e t ht => ⟨.inr ⟨ht.1, haccepted⟩, congrArg items ht.2⟩
  · intro f t ht
    rcases ht with ⟨rfl, ⟨x, _, hraise⟩ | ⟨made, hlt, hmade, hf⟩⟩
    · exact absurd hraise hE.not_drop
    · have hlong : s.items.length ≤ n := Nat.le_of_lt (Nat.lt_of_sub_pos (Nat.zero_lt_of_lt hlt))
      rw [hfaulted made f hlt hmade hf, List.take_of_length_le hlong]

/-- To resize is to truncate the list or to lengthen it by copies. -/
theorem resize_follows (n : Nat) (x : α) (hE : E.Faithful) (hs : Sound E m (s, w)) :
    (resize E n x (s, w)).Meets (follows s (ListAct.resize n x)) := by
  have hresize : (resize E n x (s, w)).Meets (soundly E m (s.lengthened E n
      (fun _ => CanYield (E.onClone x)) fun _ => CanRaise (E.onClone x))) := by
    apply soundly_imp (resize_meets n x hs)
    · exact fun _ _ => id
    · exact fun _ _ => id
    · intro f t ht
      rcases ht with hf | ⟨hdrop, _⟩
      · exact hf
      · exact absurd hdrop hE.not_drop
  apply lengthened_follows hE hresize
  · exact Outcome.accepted_done _ _
  · intro xs hlen hxs
    rw [hE.exact.cloned_eq_replicate hxs, hlen]
    rfl
  · exact fun made f _ _ hf => absurd hf hE.not_clone

/-- A fault of the closure leaves the sequence as it was. -/
theorem resizeBy_follows (n : Nat) (maker : Maker α) (hE : E.Faithful) (hs : Sound E m (s, w)) :
    (resizeBy E n maker (s, w)).Meets (follows s (ListAct.resizeBy n (maker.calls 0))) := by
  apply lengthened_follows hE (resizeMade_meets n hs fun k _ => maker.produces k)
  · exact ListAct.called_accepted fun _ => Outcome.accepted_done _ _
  · intro xs hlen hxs
    have hcalls := Maker.calls_of_made hxs
    rw [hlen] at hcalls
    exact ListAct.called_of_ok hcalls
  · intro made f hlt hmade hf
    obtain ⟨message, hraise, rfl⟩ := hf
    rw [← Nat.zero_add made.length] at hraise
    exact ListAct.called_of_error (Maker.calls_of_fault hmade hlt hraise)

/-- Which default elements these are may depend on the state of the element code. -/
theorem resizeDefault_follows (n : Nat) (hE : E.Faithful) (hs : Sound E m (s, w)) :
    ∃ fresh : Nat → α, (∀ k, CanYield E.onDefault (fresh k)) ∧
      (resizeDefault E n (s, w)).Meets
        (follows s (ListAct.resizeBy n fun count => .ok ((List.range count).map fresh))) := by
  obtain ⟨default, hdefault⟩ := hE.default w.code
  have hpad : ∀ {xs : List α}, Staging.Made (fun _ => CanYield E.onDefault) 0 xs →
      ∀ k, CanYield E.onDefault (xs.getD k default) := by
    intro xs hxs k
    rw [List.getD_eq_getElem?_getD]
    cases hx : xs[k]? with
    | none => exact ⟨w.code, hdefault⟩
    | some x => exact hxs k x hx
  have hresize : (resizeDefault E n (s, w)).Meets (soundly E m (s.lengthened E n
      (fun _ => CanYield E.onDefault) fun _ => CanRaise E.onDefault)) :=
    resizeMade_meets n hs fun _ _ => E.default_produces
  -- The default elements are read off the outcome: nothing but the run itself determines them.
  cases ho : resizeDefault E n (s, w) with
  | done b u =>
      rw [ho] at hresize
      obtain ⟨_, _, xs, hlen, hxs, hitems⟩ := hresize
      have hfresh : (List.range (n - s.items.length)).map (fun k => xs.getD k default) = xs := by
        apply List.ext_getElem
        · rw [List.length_map, List.length_range, hlen, len]
        · intro k _ hk
          rw [List.getElem_map, List.getElem_range, ← List.getElem_eq_getD]
      refine ⟨fun k => xs.getD k default, hpad hxs, ?_⟩
      exact (ListAct.called_of_ok (congrArg _ hfresh)).trans (congrArg _ hitems.symm)
  | refused e u =>
      rw [ho] at hresize
      refine ⟨fun _ => default, fun _ => ⟨w.code, hdefault⟩, .inr ⟨hresize.2.1, ?_, ?_⟩⟩
      · exact Outcome.accepted_done _ _
      · exact congrArg items hresize.2.2
  | faulted f u =>
      rw [ho] at hresize
      rcases hresize.2.2 hE.fits with ⟨_, ⟨x, _, hraise⟩ | ⟨_, _, _, hraise⟩⟩
      · exact absurd hraise hE.not_drop
      · exact absurd hraise hE.not_default

/-! ### Elements of the sequence itself, and of iterators -/

/-- What is inserted is what the span held before. -/
theorem insertOwn_follows (position : Nat) (span : Span) (hE : E.Faithful)
    (hs : Sound E m (s, w)) :
    (insertOwn E position span (s, w)).Meets (follows s (ListAct.insertOwn position span)) := by
  have hinsert := insertOwn_meets position span hs
  cases hspan : span.within s.len with
  | error e =>
      apply follows_of_soundly hE hinsert
      · intro _ t ht
        obtain ⟨r, hr, _⟩ := ht
        cases hspan.symm.trans hr
      · intro e' t ht
        rcases ht with ⟨he, hsame⟩ | ⟨r, hr, _⟩
        · exact ⟨.inl (ListAct.insertOwn_of_error he), congrArg items hsame⟩
        · cases hspan.symm.trans hr
      · intro f t ht
        obtain ⟨r, hr, _⟩ := ht
        cases hspan.symm.trans hr
  | ok r =>
      obtain ⟨start, stop⟩ := r
      have hbounds := Span.bounds_of_within hspan
      have hinserted : (insertOwn E position span (s, w)).Meets (soundly E m
          (inserted s position (stop - start)
            (E.ClonedFrom ((s.items.drop start).take (stop - start)))
            (E.CloneFaults ((s.items.drop start).take (stop - start)))
            (s.interrupted position (stop - start)))) := by
        apply soundly_imp hinsert
        · intro _ t ht
          obtain ⟨r, hr, ht⟩ := ht
          cases hspan.symm.trans hr
          exact ht
        · intro e t ht
          rcases ht with ⟨he, _⟩ | ⟨r, hr, ht⟩
          · cases hspan.symm.trans he
          · cases hspan.symm.trans hr
            exact ht
        · intro f t ht
          obtain ⟨r, hr, ht⟩ := ht
          cases hspan.symm.trans hr
          exact ht
      have hlen : ((s.items.drop start).take (stop - start)).length = stop - start := by
        have hstop : stop ≤ s.items.length := hbounds.2
        rw [List.length_take, List.length_drop]
        omega
      rw [follows, ListAct.insertOwn_of_ok hspan]
      exact inserted_follows hE hinserted (fun _ hxlen hxs => hE.exact.cloned_eq hxs (hxlen.trans hlen.symm))
        fun _ _ => hE.not_cloneFaults

/-- To insert from an iterator is to insert what it gives, or to append it where the iterator
raises. -/
theorem insertFeed_follows (position : Nat) (feed : Feed α) (hE : E.Faithful)
    (hs : Sound E m (s, w)) :
    (insertFeed E position feed (s, w)).Meets (follows s (ListAct.insertFeed position feed)) := by
  apply follows_of_soundly hE (insertFeed_meets position feed hs)
  · intro _ t ht
    obtain ⟨hposition, hraised, _, hitems⟩ := ht
    rw [ListAct.insertFeed_of_le hposition, ListAct.feedInto_of_none hraised, hitems]
  · intro e t ht
    refine ⟨refused_of_isDueTo ht.1 (fun hfar => ListAct.insertFeed_of_gt hfar feed) ?_, ht.2.2⟩
    intro hposition
    rw [ListAct.insertFeed_of_le hposition]
    exact ListAct.feedInto_accepted _ _ _
  · intro f t ht
    rcases ht with ⟨hposition, _, ⟨message, hraised, rfl, hitems⟩ | ⟨_, _, x, _, hraise⟩⟩
    · rw [ListAct.insertFeed_of_le hposition, ListAct.feedInto_of_some hraised, hitems]
    · exact absurd hraise hE.not_drop

/-- To extend from an iterator is to append what it gives. -/
theorem extendFeed_follows (feed : Feed α) (hE : E.Faithful) (hs : Sound E m (s, w)) :
    (extendFeed E feed (s, w)).Meets (follows s (ListAct.appendFeed feed)) := by
  have hinsert := insertFeed_follows s.len feed hE hs
  rw [follows, len, ListAct.insertFeed_length] at hinsert
  exact hinsert

/-! ### New contents -/

/-- An assignment of faithful elements is that of their list. -/
theorem assigned_follows {ys : List α} {o : Outcome (Sequence α × World σ α) Unit}
    (hE : E.Faithful) (h : o.Meets (soundly E m (s.assigned E ys))) :
    o.Meets (follows s (ListAct.assign ys)) := by
  apply follows_of_soundly hE h
  · intro _ t ht
    obtain ⟨_, hlen, hmade⟩ := ht
    rw [hE.exact.replaced_eq hmade hlen]
    rfl
  · exact fun e t ht => ⟨lack_of_done rfl ht.1, congrArg items ht.2⟩
  · intro f t ht
    rcases ht with ⟨_, _, _, _, hfaults, _⟩ | ⟨_, _, _, x, _, hraise⟩
    · exact absurd hfaults hE.not_replaceFaults
    · exact absurd hraise hE.not_drop

/-- To assign copies is to assign the list of copies. -/
theorem assignCopies_follows (count : Nat) (x : α) (hE : E.Faithful) (hs : Sound E m (s, w)) :
    (assignCopies E count x (s, w)).Meets
      (follows s (ListAct.assign (List.replicate count x))) :=
  assigned_follows hE (assignCopies_meets count x hs)

/-- To assign elements is to assign the list. -/
theorem assignAll_follows (xs : List α) (hE : E.Faithful) (hs : Sound E m (s, w)) :
    (assignAll E xs (s, w)).Meets (follows s (ListAct.assign xs)) :=
  assigned_follows hE (assignAll_meets xs hs)

/-- A lack of memory leaves the first elements of the iterator. -/
theorem assignFeed_follows (feed : Feed α) (hE : E.Faithful) (hs : Sound E m (s, w)) :
    (assignFeed E feed (s, w)).Meets (refining (fun u => u.1.items)
      (ListAct.assignFeed feed s.items) fun left => ∃ n, left = feed.members.take n) := by
  apply (assignFeed_meets feed hs).imp
  · intro _ u hu
    obtain ⟨_, hraised, _, hitems⟩ := hu
    exact (ListAct.feedInto_of_none hraised _ _).trans (congrArg _ hitems.symm)
  · intro e u hu
    obtain ⟨_, hlack, _, n, hitems⟩ := hu
    exact .inr ⟨hlack, ListAct.feedInto_accepted _ _ _, n, hitems⟩
  · intro f u hu
    rcases hu.2.2 hE.fits with ⟨_, ⟨message, hraised, rfl, hitems⟩ | ⟨x, _, hraise⟩⟩
    · rw [List.nil_append, List.length_nil, Nat.zero_add] at hitems
      exact (ListAct.feedInto_of_some hraised _ _).trans (congrArg _ hitems.symm)
    · exact absurd hraise hE.not_drop

/-- To copy a sequence is to assign its list. -/
theorem copyFrom_follows {other : Sequence α} (hE : E.Faithful) (hs : Sound E m (s, w)) :
    (copyFrom E other (s, w)).Meets (follows s (ListAct.assign other.items)) := by
  apply follows_of_soundly hE (copyFrom_meets hs)
  · intro _ t ht
    obtain ⟨_, hlen, olds, hmade⟩ := ht
    rw [hE.exact.replaced_eq hmade hlen]
    rfl
  · exact fun e t ht => ⟨lack_of_done rfl ht.1, congrArg items ht.2⟩
  · intro f t ht
    rcases ht with ⟨_, _, hfaults⟩ | ⟨x, _, hraise⟩
    · exact absurd hfaults hE.not_replaceFaults
    · exact absurd hraise hE.not_drop

end Sequence

end Growable
