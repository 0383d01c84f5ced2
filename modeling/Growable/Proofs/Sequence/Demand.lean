import Growable.Proofs.Demand
import Growable.Proofs.Sequence.Refusal

/-!
# How operations on sequences are answered

The demand of each operation on a sequence, and that the operation is answered as its demand says.  In a
sequence with room, the elements are made in place; otherwise a region is put together for which the
allocator is asked first (`Staging.assemble_asks`), and the sequence takes it (`grown_of_asked`).

The code that makes elements is not refused and has nothing to do with any allocator (`Act.Aside`); this is
all that is used of it.
-/

namespace Growable

open Act

variable {σ α β : Type} {E : Element σ α} {w : World σ α}

/-! ## Code that makes elements -/

namespace Element

/-- A clone asks for no memory. -/
theorem aside_clone (E : Element σ α) (source : α) : Aside (E.clone source) :=
  (E.firm_clone source).aside fun _ => E.keeps_clone (fun _ => id) source

theorem aside_default (E : Element σ α) : Aside E.default :=
  E.firm_default.aside fun _ => E.keeps_default fun _ => id

/-- What a source comes to is cloned. -/
theorem aside_cloneFrom {source : Act (World σ α) α} (hsource : Aside source) :
    Aside (do E.clone (← source)) :=
  (hsource.firm.bind fun x => E.firm_clone x).aside fun w =>
    (hsource.keeps (fun _ => id) w).bind fun x => E.keeps_clone (fun _ => id) x

end Element

theorem Maker.aside_call (maker : Maker α) (k : Nat) : Aside (maker.call k : Act (World σ α) α) :=
  (maker.firm_call k).aside fun _ => maker.keeps_call k fun _ => id

theorem Act.aside_pure (x : β) : Aside (pure x : Act (World σ α) β) :=
  (firm_pure x).aside fun _ => keeps_pure x

theorem Act.aside_ofOption (check : Check) (value : Option β) :
    Aside (ofOption check value : Act (World σ α) β) :=
  (firm_ofOption check value).aside fun _ => keeps_ofOption check value

/-! ## Contents put together in a new region -/

namespace Staging

variable {allocator : Allocator} {n : Nat} {s : Staging α}

/-- Constructing an element in a staging asks for no memory beyond that of its block. -/
theorem quiet_append {make : Act (World σ α) α} (hmake : Aside make) (hs : s.Spans allocator n) :
    Quiet (Spans allocator n) (s.append E make) :=
  (firm_append E s hmake.firm).quiet fun w =>
    yields_append E Event.request?_of_upkeep (hmake.keeps (fun _ => Event.request?_of_unasked) w) hs

theorem quiet_extend {make : Nat → Act (World σ α) α} (hmake : ∀ k, Aside (make k)) (k count : Nat)
    (hs : s.Spans allocator n) : Quiet (Spans allocator n) (s.extend E make k count) :=
  (firm_extend E s (fun k => (hmake k).firm) k count).quiet fun w =>
    yields_extend E Event.request?_of_upkeep
      (fun k => (hmake k).keeps (fun _ => Event.request?_of_unasked) w) k count hs

/-- The region is asked for before anything is made. -/
theorem assemble_asks (hshape : E.toShape.Lawful) (hle : E.bytes * n ≤ Size.blockLimit)
    (front back : List α) {construct : Staging α → Act (World σ α) (Staging α)}
    (hconstruct : ∀ s : Staging α, s.Spans allocator n → Quiet (Spans allocator n) (construct s))
    (w : World σ α) : (assemble E allocator n front back construct w).Meets
      (.asked allocator.place (E.bytes * n) w fun r => r.1.capacity = n) := by
  apply Post.asked_bind (allocate_asks hshape hle w)
  intro s hs
  apply ((firm_seek s front.length).quiet fun w => yields_seek _ hs).bind
  intro s hs
  apply (hconstruct s hs).bind
  intro s hs
  apply ((firm_moveBefore s front).quiet fun w => yields_moveBefore front hs).bind
  intro s hs
  apply ((firm_moveAfter s back).quiet fun w => yields_moveAfter back hs).bind
  exact fun s hs => (firm_adopt s).quiet fun w => yields_adopt hs

end Staging

namespace Sequence

/-- A sequence keeps one element in a slot. -/
def storage (E : Element σ α) : Storage (Sequence α) where
  region := region
  handle := handle
  capacity := capacity
  maxSize := maxSize E
  slotsFor n := n
  slot := E.toShape
  capacity_eq _ _ := congrArg Region.capacity

variable {s : Sequence α} {n : Nat}

/-! ## Work in place -/

/-- What refuses nothing and keeps the region is settled. -/
theorem settled_of_keeps {act : SequenceAct σ α β} (hfirm : Firm act)
    (hkeeps : Keeps (Under s.handle (· = s.region) (fun e => e.place? = none) w) act) :
    (act (s, w)).Meets (.settled (storage E) s w) :=
  ((hkeeps (s, w) ⟨⟨rfl, rfl⟩, .refl w⟩).and (hfirm (s, w))).imp (fun _ _ hu => ⟨hu.1.1.2, hu.1.2⟩)
    (fun _ _ hu => hu.2) (fun _ _ hu => ⟨hu.1.1.2, hu.1.2⟩)

/-- Removing the last element stays in the region. -/
theorem settled_pop : (pop (s, w)).Meets (.settled (storage E) s w) :=
  settled_of_keeps firm_pop (keeps_pop (Event.chore_of_unasked fun _ => id))

/-- Removing elements from the end stays in the region, though it may fault. -/
theorem settled_truncate (n : Nat) : (truncate E n (s, w)).Meets (.settled (storage E) s w) :=
  settled_of_keeps (firm_truncate n) (keeps_truncate (Event.chore_of_unasked fun _ => id) n)

/-- Reading an element stays in the region. -/
theorem settled_demand (index : Nat) : (demand index (s, w)).Meets (.settled (storage E) s w) := by
  apply settled_of_keeps _ (keeps_demand index)
  apply firm_held.bind
  intro s
  cases s.get index with
  | ok x => exact firm_pure x
  | error e => exact firm_fault _

/-- Replacing an element stays in the region. -/
theorem settled_carry (x : α) : (carry x (s, w)).Meets (.settled (storage E) s w) := by
  apply settled_of_keeps _ (keeps_carry (Event.chore_of_unasked fun _ => id) x)
  apply firm_held.bind
  intro s
  apply (firm_hold _).bind
  intro _
  apply ((firm_record _).bind fun _ => firm_record _).inWorld.bind
  exact fun _ => firm_pure _

/-- There is an element at every index within the length, and at no other. -/
theorem checkIndex_eq (s : Sequence α) (index : Nat) :
    checkIndex index s.len = (s.get index).map fun _ => () := by
  unfold checkIndex get
  by_cases hindex : index < s.len
  · rw [if_pos hindex, List.getElem?_eq_getElem hindex]
    rfl
  · rw [if_neg hindex, List.getElem?_eq_none (Nat.not_lt.mp hindex)]
    rfl

/-- An element that takes the place of one that is there. -/
theorem settled_exchange {index : Nat} {old : α} (hold : s.get index = .ok old) (x : α) :
    (exchange index x (s, w)).Meets (.settled (storage E) s w) := by
  have hchore : ∀ e : Event α, e.Chore → e.place? = none := Event.chore_of_unasked fun _ => id
  rw [exchange, held_bind, hold, ofExcept_bind_ok]
  apply settled_of_keeps
  · apply (firm_hold _).bind
    intro _
    exact ((firm_record _).bind fun _ => firm_record _).inWorld.bind fun _ => firm_pure _
  · apply Keeps.bind
    · exact keeps_hold ⟨rfl, rfl⟩
    intro _
    apply (keeps_inWorld ((World.keeps_receive hchore x).bind fun _ => World.keeps_hand hchore old)).bind
    exact fun _ => keeps_pure _

/-- What is demanded where nothing is faults. -/
theorem settled_exchangeDemanded (index : Nat) (x : α) :
    (exchangeDemanded index x (s, w)).Meets (.settled (storage E) s w) := by
  cases hget : s.get index with
  | ok old =>
      have hdemand : demand index (s, w) = .done old (s, w) := by
        rw [demand, held_bind, hget]
        rfl
      rw [exchangeDemanded, bind_of_done hdemand]
      exact settled_exchange hget x
  | error e =>
      have hdemand : demand index (s, w) = .faulted (.indexOutOfBounds index s.len) (s, w) := by
        rw [demand, held_bind, hget]
        rfl
      rw [exchangeDemanded, bind_of_faulted hdemand]
      exact ⟨rfl, .refl w⟩

section InPlace

variable (hfits : s.capacity ≤ s.maxSize E)

include hfits

/-- A removal demands an index in bounds and no room. -/
theorem erase_answered (index : Nat) :
    Demand.Answered (storage E) ⟨checkIndex index s.len, 0, false⟩ none s w (erase index (s, w)) := by
  have hchore : ∀ e : Event α, e.Chore → e.place? = none := Event.chore_of_unasked fun _ => id
  rw [erase_eq, held_bind]
  apply Demand.Answered.ofExcept_bind (s.checkIndex_eq index)
  intro x _
  apply Demand.answered_of_settled hfits (Nat.zero_le _)
  apply settled_of_keeps
  · apply (firm_hold _).bind
    intro _
    exact (firm_record _).inWorld.bind fun _ => firm_pure _
  · apply Keeps.bind
    · exact keeps_hold ⟨rfl, rfl⟩
    exact fun _ => (keeps_inWorld (World.keeps_hand hchore x)).bind fun _ => keeps_pure _

/-- A replacement demands an index in bounds and no room. -/
theorem exchange_answered (index : Nat) (x : α) :
    Demand.Answered (storage E) ⟨checkIndex index s.len, 0, false⟩ none s w (exchange index x (s, w)) := by
  have hthere : ∀ old, s.get index = .ok old →
      (exchange index x (s, w)).Meets (.settled (storage E) s w) :=
    fun _ hold => settled_exchange hold x
  rw [exchange, held_bind] at hthere ⊢
  apply Demand.Answered.ofExcept_bind (s.checkIndex_eq index)
  intro old hold
  apply Demand.answered_of_settled hfits (Nat.zero_le _)
  have hexchanged := hthere old hold
  rw [hold] at hexchanged
  exact hexchanged

/-- The removal of a span demands its bounds and no room. -/
theorem eraseSpan_answered (span : Span) :
    Demand.Answered (storage E) ⟨(span.within s.len).map fun _ => (), 0, false⟩ none s w
      (eraseSpan E span (s, w)) := by
  have hchore : ∀ e : Event α, e.Chore → e.place? = none := Event.chore_of_unasked fun _ => id
  rw [eraseSpan_eq, held_bind]
  apply Demand.Answered.ofExcept_bind rfl
  intro bounds _
  apply Demand.answered_of_settled hfits (Nat.zero_le _)
  apply settled_of_keeps
  · apply (firm_pure _).ite
    apply (firm_hold _).bind
    exact fun _ => (E.firm_dropAll _ _).inWorld.ensuring fun _ => firm_hold _
  · apply Keeps.ite (fun _ => keeps_pure _)
    intro _
    apply Keeps.bind
    · exact keeps_hold ⟨rfl, rfl⟩
    intro _
    apply (keeps_inWorld (E.keeps_dropAll hchore _ _)).ensuring
    exact fun _ => keeps_hold ⟨rfl, rfl⟩

end InPlace

/-! ## New regions -/

/-- What a sequence takes is in the region that was made for it. -/
theorem install_takes (region : Region) (items : List α) (s : Sequence α) (w : World σ α) :
    (install E region items (s, w)).Meets
      ⟨fun _ u => u.1.region = region ∧ w.Evolves (fun e => e.request? = none) u.2, fun _ _ => False,
        fun _ u => w.Evolves (fun e => e.request? = none) u.2⟩ := by
  have hquiet : ∀ e : Event α, e.Upkeep s.handle.allocator.place 0 → e.request? = none :=
    Event.request?_of_upkeep
  have hkept := Region.keeps_release hquiet E.toShape s.region w (.refl w)
  simp only [install, bind_meets, held_meets, hold_meets, inWorld_meets]
  exact (hkept.and (Region.firm_release _ _ _ w)).imp (fun _ _ hw => ⟨trivial, hw.1⟩) (fun _ _ => And.right)
    (fun _ _ => And.left)

/-- The sequence has the new block even if a drop of the old elements faults. -/
theorem replace_takes (region : Region) (items : List α) (s : Sequence α) (w : World σ α) :
    (replace E region items (s, w)).Meets
      ⟨fun _ u => u.1.region = region ∧ w.Evolves (fun e => e.request? = none) u.2, fun _ _ => False,
        fun _ u => w.Evolves (fun e => e.request? = none) u.2⟩ := by
  have hkept := keeps_dispose (E := E) Event.request?_of_upkeep false (s := s) rfl w (.refl w)
  simp only [replace, bind_meets, held_meets, hold_meets, inWorld_meets]
  exact (hkept.and (firm_dispose false s w)).imp (fun _ _ hw => ⟨trivial, hw.1⟩) (fun _ _ => And.right)
    (fun _ _ => And.left)

/-- A sequence that takes a region once it is put together asks for it. -/
theorem grown_of_asked {made : Act (World σ α) (Region × List α)}
    {take : Region × List α → SequenceAct σ α Unit}
    (hmade : (made w).Meets
      (.asked s.handle.allocator.place (E.bytes * n) w fun r => r.1.capacity = n))
    (htake : ∀ r w, (take r (s, w)).Meets
      ⟨fun _ u => u.1.region = r.1 ∧ w.Evolves (fun e => e.request? = none) u.2, fun _ _ => False,
        fun _ u => w.Evolves (fun e => e.request? = none) u.2⟩) :
    ((do take (← inWorld made)) (s, w)).Meets (.grown (storage E) n none s w) := by
  apply bind_meets.mpr
  apply inWorld_meets.mpr
  apply hmade.imp
  · rintro r w₁ ⟨hr, hserved⟩
    exact (htake r w₁).imp
      (fun _ _ hu => ⟨(congrArg Region.capacity hu.1).trans hr, hserved.append hu.2⟩)
      (fun _ _ => False.elim) (fun _ _ hu => .inl (hserved.append hu))
  · exact fun _ _ hw => ⟨hw.2.1, hw.1, rfl, hw.2.2⟩
  · exact fun _ _ => .inl

/-! ## The operations -/

/-- What the handle admits is a block that can be described. -/
theorem mul_le_blockLimit (hn : n ≤ s.maxSize E) : E.bytes * n ≤ Size.blockLimit :=
  Handle.mul_le s.handle.maxBytes_le hn

/-- A length within the limit can be required. -/
theorem required_of_le (hn : s.len + n ≤ s.maxSize E) : s.required n = .ok (s.len + n) := by
  unfold required
  rw [Size.add?_eq_some_iff.mpr ⟨rfl, hn.trans (s.handle.maxSize_le_limit E.bytes)⟩]

/-- The length that is required has no value, or one that is rejected. -/
theorem rejected_of_required {next : Nat → SequenceAct σ α β}
    (hnext : (next (s.len + n) (s, w)).Meets (.rejected .capacityExceeded [] none s w)) :
    ((ofExcept (s.required n) >>= next) (s, w)).Meets (.rejected .capacityExceeded [] none s w) := by
  cases hrequired : s.required n with
  | error e =>
      obtain rfl := required_eq_error hrequired
      exact Post.rejected_refuse _ s w
  | ok m =>
      obtain rfl := required_eq_ok hrequired
      exact hnext

/-- A reallocation makes one request, for the capacity it is asked for. -/
theorem reallocate_grown (hshape : E.toShape.Lawful) (hroom : s.len ≤ n) (hmax : n ≤ s.maxSize E) :
    (reallocate E n (s, w)).Meets (.grown (storage E) n none s w) := by
  rw [reallocate, held_bind, require_eq_pure hroom, pure_bind]
  apply grown_of_asked
  · apply Post.asked_note
    intro w
    apply Post.asked_bind (Staging.allocate_asks hshape (mul_le_blockLimit hmax) w)
    intro staging hs
    apply ((staging.firm_moveAfter s.items).quiet fun w => Staging.yields_moveAfter s.items hs).bind
    exact fun staging hs => staging.firm_adopt.quiet fun w => Staging.yields_adopt hs
  · exact fun r w => install_takes r.1 r.2 s w

section Answered

variable {o : Outcome (Sequence α × World σ α) β}
  (hexceeding : s.maxSize E < n → o.Meets (.rejected .capacityExceeded [] none s w))
  (hstays : n ≤ s.capacity → o.Meets (.settled (storage E) s w))

include hexceeding hstays

/-- What makes room for exactly as many elements as are required. -/
theorem answered (hgrows : E.toShape.Lawful → s.capacity < n → n ≤ s.maxSize E →
      o.Meets (.grown (storage E) n none s w)) :
    Demand.Answered (storage E) ⟨.ok (), n, false⟩ none s w o :=
  ⟨nofun, fun _ => hexceeding, fun _ => hstays, fun hshape _ hlt hmax => ⟨n, rfl, hgrows hshape hlt hmax⟩⟩

/-- What makes room by the growth policy. -/
theorem answered_ahead (hgrows : E.toShape.Lawful → s.capacity < n → n ≤ s.maxSize E →
      ∀ capacity, Capacity.grow s.capacity n (s.maxSize E) = .ok capacity →
        o.Meets (.grown (storage E) capacity none s w)) :
    Demand.Answered (storage E) ⟨.ok (), n, true⟩ none s w o := by
  refine ⟨nofun, fun _ => hexceeding, fun _ => hstays, fun hshape _ hlt hmax => ?_⟩
  obtain ⟨capacity, hgrow⟩ := Capacity.exists_grow s.capacity hmax
  exact ⟨capacity, hgrow, hgrows hshape hlt hmax capacity hgrow⟩

end Answered

variable (hlen : s.len ≤ s.capacity) (hfits : s.capacity ≤ s.maxSize E)

include hlen hfits

/-- Reserving demands that capacity, exactly. -/
theorem reserve_answered (n : Nat) :
    Demand.Answered (storage E) ⟨.ok (), n, false⟩ none s w (reserve E n (s, w)) := by
  apply answered
  · intro hmax
    rw [reserve, held_bind, if_neg (Nat.not_le.mpr (hfits.trans_lt hmax)), Capacity.check_of_lt hmax]
    exact Post.rejected_refuse _ s w
  · intro hle
    rw [reserve, held_bind, if_pos hle]
    exact ⟨rfl, .refl w⟩
  · intro hshape hlt hmax
    rw [reserve, held_bind, if_neg (Nat.not_le.mpr hlt), Capacity.check_of_le hmax]
    exact reallocate_grown hshape (hlen.trans hlt.le) hmax

/-- Reserving more demands the sum, with room to grow. -/
theorem reserveMore_answered (n : Nat) :
    Demand.Answered (storage E) ⟨.ok (), s.len + n, true⟩ none s w (reserveMore E n (s, w)) := by
  apply answered_ahead
  · intro hmax
    rw [reserveMore, held_bind]
    apply rejected_of_required
    rw [if_neg (Nat.not_le.mpr (hfits.trans_lt hmax)), Capacity.grow_of_lt hmax]
    exact Post.rejected_refuse _ s w
  · intro hle
    rw [reserveMore, held_bind, required_of_le (hle.trans hfits), ofExcept_bind_ok, if_pos hle]
    exact ⟨rfl, .refl w⟩
  · intro hshape hlt hmax capacity hgrow
    have hbounds := Capacity.grow_bounds hgrow
    rw [reserveMore, held_bind, required_of_le hmax, ofExcept_bind_ok, if_neg (Nat.not_le.mpr hlt), hgrow]
    exact reallocate_grown hshape (hlen.trans (hlt.le.trans hbounds.1)) hbounds.2

section Push

variable {make : Act (World σ α) α} (hmake : Aside make)

include hmake

omit hlen hfits in
/-- A push into a full sequence makes one request, for the grown capacity. -/
theorem pushGrown_grown (hshape : E.toShape.Lawful) (hmax : s.len + 1 ≤ s.maxSize E)
    (hgrow : Capacity.grow s.capacity (s.len + 1) (s.maxSize E) = .ok n) :
    (pushGrown E make (s, w)).Meets (.grown (storage E) n none s w) := by
  rw [pushGrown_eq, held_bind, required_of_le hmax, ofExcept_bind_ok, hgrow, ofExcept_bind_ok]
  apply grown_of_asked _ fun r w => install_takes r.1 r.2 s w
  apply Post.asked_note
  exact Staging.assemble_asks hshape (mul_le_blockLimit (Capacity.grow_bounds hgrow).2) _ _
    fun _ hs => Staging.quiet_append hmake hs

/-- A push demands one slot more, with room to grow. -/
theorem pushBy_answered :
    Demand.Answered (storage E) ⟨.ok (), s.len + 1, true⟩ none s w (pushBy E make (s, w)) := by
  apply answered_ahead
  · intro hmax
    have hfull : s.len = s.capacity := by omega
    rw [pushBy, held_bind, if_pos hfull, pushGrown, held_bind]
    apply rejected_of_required
    rw [Capacity.grow_of_lt hmax]
    exact Post.rejected_refuse _ s w
  · intro hle
    have hroom : s.len ≠ s.capacity := by omega
    rw [pushBy, held_bind, if_neg hroom]
    exact settled_of_keeps (hmake.firm.inWorld.bind firm_store)
      ((keeps_inWorld (hmake.keeps (fun _ => id) w)).bind keeps_store)
  · intro hshape hlt hmax capacity hgrow
    have hfull : s.len = s.capacity := by omega
    rw [pushBy, held_bind, if_pos hfull]
    exact pushGrown_grown hmake hshape hmax hgrow

end Push

section Insert

omit hlen hfits in
/-- An insertion into a full sequence makes one request, for the grown capacity. -/
theorem insertGrown_grown {make : (Nat → Option α) → Nat → Act (World σ α) α} (hmake : ∀ former? k, Aside (make former? k))
    (hshape : E.toShape.Lawful) {position count : Nat} (hposition : position ≤ s.len)
    (hmax : s.len + count ≤ s.maxSize E)
    (hgrow : Capacity.grow s.capacity (s.len + count) (s.maxSize E) = .ok n) :
    (insertGrown E position count make (s, w)).Meets (.grown (storage E) n none s w) := by
  rw [insertGrown_eq _ _ _ hposition, required_of_le hmax, ofExcept_bind_ok, hgrow, ofExcept_bind_ok]
  apply grown_of_asked
  · apply Post.asked_note
    exact Staging.assemble_asks hshape (mul_le_blockLimit (Capacity.grow_bounds hgrow).2) _ _
      fun _ hs => Staging.quiet_extend (hmake _) 0 count hs
  · intro r w
    rw [bind_meets, require_meets]
    exact ⟨fun _ => install_takes r.1 r.2 s w, fun _ => .refl w⟩

/-- An insertion demands a position in bounds and one slot more. -/
theorem insertBy_answered {make : Act (World σ α) α} (hmake : Aside make) (position : Nat) :
    Demand.Answered (storage E) ⟨checkPosition position s.len, s.len + 1, true⟩ none s w
      (insertBy E position make (s, w)) := by
  rw [insertBy_eq, held_bind]
  apply Demand.Answered.checked
  intro hbounds
  apply answered_ahead
  · intro hmax
    have hfull : s.len = s.capacity := by omega
    rw [if_pos hfull, insertGrown, held_bind]
    apply rejected_of_required
    rw [Capacity.grow_of_lt hmax]
    exact Post.rejected_refuse _ s w
  · intro hle
    have hroom : s.len ≠ s.capacity := by omega
    rw [if_neg hroom]
    apply settled_of_keeps
    · exact hmake.firm.inWorld.bind fun _ => (firm_require _ _).bind fun _ => firm_hold _
    · exact (keeps_inWorld (hmake.keeps (fun _ => id) w)).bind fun _ =>
        (keeps_require _ _).bind fun _ => keeps_hold ⟨rfl, rfl⟩
  · intro hshape hlt hmax capacity hgrow
    have hfull : s.len = s.capacity := by omega
    rw [if_pos hfull]
    exact insertGrown_grown (fun _ _ => hmake) hshape (le_of_checkPosition_eq_ok hbounds) hmax hgrow

/-- An insertion of several demands a position in bounds and as many slots. -/
theorem insertMade_answered {make : (Nat → Option α) → Nat → Act (World σ α) α}
    (hmake : ∀ former? k, Aside (make former? k)) (position count : Nat) :
    Demand.Answered (storage E) ⟨checkPosition position s.len, s.len + count, true⟩ none s w
      (insertMade E position count make (s, w)) := by
  rw [insertMade_eq, held_bind]
  apply Demand.Answered.checked
  intro hbounds
  apply answered_ahead
  · intro hmax
    have hsome : count ≠ 0 := by omega
    rw [if_neg hsome]
    apply rejected_of_required
    rw [Capacity.check_of_lt hmax]
    exact Post.rejected_refuse _ s w
  · intro hle
    have hmax : s.len + count ≤ s.maxSize E := hle.trans hfits
    by_cases hnone : count = 0
    · rw [if_pos hnone]
      exact ⟨rfl, .refl w⟩
    · rw [if_neg hnone, required_of_le hmax, ofExcept_bind_ok, Capacity.check_of_le hmax,
        ofExcept_bind_ok, if_neg (Nat.not_lt.mpr hle)]
      apply settled_of_keeps
      · exact (firm_hold _).bind fun _ => firm_fillBetween (fun k => (hmake _ k).firm) count []
      · apply Keeps.bind
        · exact keeps_hold ⟨rfl, rfl⟩
        exact fun _ => keeps_fillBetween (fun k => (hmake _ k).keeps (fun _ => id) w) count []
  · intro hshape hlt hmax capacity hgrow
    have hsome : count ≠ 0 := by omega
    rw [if_neg hsome, required_of_le hmax, ofExcept_bind_ok, Capacity.check_of_le hmax, ofExcept_bind_ok,
      if_pos hlt]
    exact insertGrown_grown hmake hshape (le_of_checkPosition_eq_ok hbounds) hmax hgrow

/-- The span is looked at before the position. -/
theorem insertOwn_answered {position start stop : Nat} {span : Span}
    (hspan : span.within s.len = .ok (start, stop)) :
    Demand.Answered (storage E) ⟨checkPosition position s.len, s.len + (stop - start), true⟩ none s w
      (insertOwn E position span (s, w)) := by
  rw [insertOwn, held_bind, hspan]
  exact insertMade_answered hlen hfits
    (fun _ _ => E.aside_cloneFrom (aside_ofOption _ _)) position (stop - start)

end Insert

/-- A resize demands the length, exactly. -/
theorem resizeMade_answered {make : Nat → Act (World σ α) α} (hmake : ∀ k, Aside (make k)) (n : Nat) :
    Demand.Answered (storage E) ⟨.ok (), n, false⟩ none s w (resizeMade E n make (s, w)) := by
  apply answered
  · intro hmax
    have hmore : ¬ n ≤ s.len := by omega
    rw [resizeMade, held_bind, if_neg hmore, Capacity.check_of_lt hmax]
    exact Post.rejected_refuse _ s w
  · intro hle
    rw [resizeMade, held_bind]
    by_cases hshort : n ≤ s.len
    · rw [if_pos hshort]
      exact settled_truncate n
    · rw [if_neg hshort, Capacity.check_of_le (hle.trans hfits), ofExcept_bind_ok, if_pos hle]
      apply settled_of_keeps
      · exact (firm_makeTail (fun k => (hmake k).firm) _ _ _ _ _).inWorld.bind fun _ => firm_hold _
      · apply Keeps.bind
        · exact keeps_inWorld (keeps_makeTail (Event.chore_of_unasked fun _ => id)
            (fun k => (hmake k).keeps (fun _ => id) w) _ _ _ _ _)
        · exact fun _ => keeps_hold ⟨rfl, rfl⟩
  · intro hshape hlt hmax
    have hmore : ¬ n ≤ s.len := by omega
    rw [resizeMade_eq, held_bind, if_neg hmore, Capacity.check_of_le hmax, ofExcept_bind_ok,
      if_neg (Nat.not_le.mpr hlt)]
    apply grown_of_asked _ fun r w => install_takes r.1 r.2 s w
    exact Staging.assemble_asks hshape (mul_le_blockLimit hmax) _ _
      (fun _ hs => Staging.quiet_extend hmake 0 _ hs) w

/-- An assignment demands the length of what is assigned, exactly. -/
theorem assignMade_answered {source : Nat → Act (World σ α) α} (hsource : ∀ k, Aside (source k))
    (n : Nat) : Demand.Answered (storage E) ⟨.ok (), n, false⟩ none s w (assignMade E n source (s, w)) := by
  have hfirm := fun k => (hsource k).firm
  have hkeeps := fun k => (hsource k).keeps (fun _ => id) w
  apply answered
  · intro hmax
    have hmore : ¬ n ≤ s.len := by omega
    rw [assignMade, held_bind, if_neg hmore, Capacity.check_of_lt hmax]
    exact Post.rejected_refuse _ s w
  · intro hle
    rw [assignMade, held_bind]
    by_cases hshort : n ≤ s.len
    · rw [if_pos hshort]
      exact settled_of_keeps ((firm_overwriteFrom hfirm 0 n).bind fun _ => firm_truncate n)
        ((keeps_overwriteFrom (fun _ => id) hkeeps 0 n).bind fun _ =>
          keeps_truncate (Event.chore_of_unasked fun _ => id) n)
    · rw [if_neg hshort, Capacity.check_of_le (hle.trans hfits), ofExcept_bind_ok, if_pos hle]
      exact settled_of_keeps ((firm_overwriteFrom hfirm 0 _).bind fun _ => firm_storeFrom hfirm _)
        ((keeps_overwriteFrom (fun _ => id) hkeeps 0 _).bind fun _ =>
          keeps_storeFrom (fun _ => id) hkeeps _)
  · intro hshape hlt hmax
    have hmore : ¬ n ≤ s.len := by omega
    rw [assignMade_eq, held_bind, if_neg hmore, Capacity.check_of_le hmax, ofExcept_bind_ok,
      if_neg (Nat.not_le.mpr hlt)]
    apply grown_of_asked _ fun r w => replace_takes r.1 r.2 s w
    exact Staging.assemble_asks hshape (mul_le_blockLimit hmax) _ _
      (fun _ hs => Staging.quiet_extend (fun k => E.aside_cloneFrom (hsource k)) 0 n hs) w

omit hlen hfits

/-! ## New sequences -/

/-- An empty sequence is given up without any event. -/
theorem dispose_empty (hfits : E.toShape.Fits) (handle : Handle) (w : World σ α) :
    ((empty handle).dispose E false w).Meets (.returns fun _ w' => w' = w) :=
  ensuring_meets.mpr (Region.release_empty hfits handle.allocator w)

/-- Work on a new sequence asks for all that is asked for. -/
theorem build_makes (hfits : E.toShape.Fits) {handle : Handle} {work : SequenceAct σ α β}
    (hwork : Demand.Answered (storage E) ⟨.ok (), n, false⟩ none (empty handle) w
      (work (empty handle, w))) :
    (storage E).Makes (empty handle) n (fun r => some r.1) w (build E handle work w) :=
  hwork.owning (dispose_empty hfits handle)
    (fun _ w => keeps_dispose Event.request?_of_upkeep true rfl w (.refl w)) ⟨rfl, rfl⟩ rfl

/-- A sequence made with a capacity makes one request for it. -/
theorem withCapacity_makes (hfits : E.toShape.Fits) (n : Nat) (handle : Handle) :
    (storage E).Makes (empty handle) n some w (withCapacity E n handle w) :=
  (build_makes hfits (reserve_answered (Nat.le_refl _) (Nat.zero_le _) n)).answer fun _ => rfl

/-- One made of a list makes one request for its length. -/
theorem ofList_makes (hfits : E.toShape.Fits) (xs : List α) (handle : Handle) :
    (storage E).Makes (empty handle) xs.length some w (ofList E xs handle w) :=
  (build_makes hfits (assignMade_answered (Nat.le_refl _) (Nat.zero_le _)
    (fun _ => aside_ofOption _ _) xs.length)).answer fun _ => rfl

/-- One made of copies makes one request for their number. -/
theorem replicate_makes (count : Nat) (x : α) (handle : Handle) :
    (storage E).Makes (empty handle) count some w (replicate E count x handle w) where
  exceeding hmax := by
    have hcheck : Capacity.check count (handle.maxSize E.bytes) = .error .capacityExceeded :=
      Capacity.check_of_lt hmax
    rw [replicate, hcheck]
    exact ⟨rfl, w.rejected_refl⟩
  asks hshape hmax := by
    have hmax : count ≤ handle.maxSize E.bytes := hmax
    rw [replicate, Capacity.check_of_le hmax, ofExcept_bind_ok]
    apply Post.asked_bind
      (Staging.allocate_asks hshape (Handle.mul_le handle.maxBytes_le hmax) w)
    intro staging hs
    apply (Staging.quiet_extend (fun _ => E.aside_clone x) 0 count hs).bind
    intro staging hs
    apply (staging.firm_adopt.quiet fun _ => Staging.yields_adopt hs).bind
    exact fun r hr w => ⟨⟨_, rfl, hr⟩, .refl w⟩

end Sequence

end Growable
