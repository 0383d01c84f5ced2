import Growable.Proofs.BitSequence.Refusal
import Growable.Proofs.Demand

/-!
# How operations on bit sequences are answered

The demand of each operation on a bit sequence, and that the operation is answered as its demand says.  All
that an operation asks for it asks for at the beginning (`reserve_answered`, `reserveMore_answered`); what it
does to the bits after that is never refused, and keeps the words where they are (`Act.Settles`).
-/

namespace Growable

theorem Word.lawful_shape : Word.shape.Lawful := ⟨by decide, by decide⟩

namespace BitSequence

open Act

variable {σ α β δ : Type}

/-- The capacity is a matter of the region. -/
theorem capacity_eq_of_region {s t : BitSequence} (h : s.region = t.region) : s.capacity = t.capacity := by
  have hsize : s.words.size = t.words.size := congrArg Region.capacity h
  rw [capacity, capacity, hsize]

/-- A bit sequence keeps its bits in words. -/
def storage : Storage BitSequence where
  region := region
  handle := handle
  capacity := capacity
  maxSize := maxSize
  slotsFor := Word.wordsFor
  slot := Word.shape
  capacity_eq _ _ := capacity_eq_of_region

variable {s : BitSequence} {w : World σ α} {n : Nat}

/-! ## Work in place -/

/-- What is firm, and asks no allocator, leaves the storage as it is. -/
theorem settles_of_keeps {act : BitAct σ α β} (hfirm : Firm act)
    (hkeeps : ∀ (h : Handle) (P : Region → Prop) (w₀ : World σ α),
      Keeps (Under h P (fun e => e.place? = none) w₀) act) : Settles storage act :=
  hfirm.settles fun s w => (hkeeps s.handle (· = s.region) w (s, w) ⟨⟨rfl, rfl⟩, .refl w⟩).always_imp
    fun _ hu => ⟨hu.1.2, hu.2⟩

/-- A length is declared without any request. -/
theorem settles_setLen (len : Nat) : Settles storage (setLen len : BitAct σ α Unit) :=
  settles_of_keeps (firm_setLen len) fun _ _ _ => keeps_setLen len

/-- Bits are filled without any request. -/
theorem settles_fill (value : Bool) (start stop : Nat) :
    Settles storage (changeWords (Word.Run.fill value start stop) : BitAct σ α Unit) :=
  settles_of_keeps (firm_changeWords _) fun _ _ _ => keeps_fill value start stop

/-- Bits are cut off without any request. -/
theorem settles_truncate (n : Nat) : Settles storage (truncate n : BitAct σ α Unit) :=
  settles_of_keeps (firm_truncate n) fun _ _ _ => keeps_truncate n

/-- Bits are written where there is room without any request. -/
theorem settles_write (index : Nat) (values : List Bool) :
    Settles storage (write index values : BitAct σ α Unit) :=
  settles_of_keeps (firm_write index values) fun _ _ _ => keeps_write index values

/-! ## New words -/

/-- A length that the handle admits is computed without a wrap. -/
theorem required_of_le (hn : s.len + n ≤ s.maxSize) : s.required n = .ok (s.len + n) := by
  have hlimit : s.maxSize ≤ Size.limit := by
    have hwords : s.maxWords ≤ Size.limit / Word.size := Nat.min_le_right _ _
    exact (Nat.mul_le_mul_right _ hwords).trans (Nat.div_mul_le_self _ _)
  unfold required
  rw [Size.add?_eq_some_iff.mpr ⟨rfl, hn.trans hlimit⟩]

/-- New words are asked for before the old ones are copied. -/
theorem reallocate_grown (hroom : s.len ≤ n) (hmax : n ≤ s.maxSize) :
    (reallocate (Word.wordsFor n) (s, w)).Meets
      (.grown storage (Word.wordsFor n) none s w) := by
  have hwords : Word.wordsFor s.len ≤ Word.wordsFor n := Word.wordsFor_mono hroom
  have hsize : s.asWords.size ≤ Word.wordsFor n := (size_asWords_le s).trans hwords
  have hasked : ((do
      World.note (.reallocatingWords s.words.size (Word.wordsFor n))
      allocateCopy s.handle.allocator s.asWords (Word.wordsFor n) : Act (World σ α) _) w).Meets
      (.asked s.handle.allocator.place (Word.shape.bytes * Word.wordsFor n) w
        fun r => r.2.size = Word.wordsFor n) := by
    apply Post.asked_note
    intro w
    rw [allocateCopy, require_eq_pure hsize, pure_bind]
    apply Post.asked_bind
      (Region.allocate_asks Word.lawful_shape (bytes_le s.handle.maxBytes_le hmax) w)
    intro _ _ w
    refine ⟨?_, .refl w⟩
    simp only [Array.size_append, Array.size_replicate]
    exact Nat.add_sub_cancel' hsize
  rw [reallocate, held_bind, require_eq_pure hwords, pure_bind]
  apply bind_meets.mpr
  apply inWorld_meets.mpr
  apply hasked.imp
  · rintro r w₁ ⟨hr, hserved⟩
    have hquiet : ∀ e : Event α, e.Upkeep s.handle.allocator.place 0 → e.request? = none :=
      Event.request?_of_upkeep
    have hkept := Region.keeps_release hquiet Word.shape s.region w₁ (.refl w₁)
    simp only [install, bind_meets, held_meets, hold_meets, inWorld_meets]
    exact (hkept.and (Region.firm_release _ _ _ w₁)).imp (fun _ _ hw => ⟨hr, hserved.append hw.1⟩)
      (fun _ _ hw => hw.2.elim) (fun _ _ hw => .inl (hserved.append hw.1))
  · exact fun _ _ hw => ⟨hw.2.1, hw.1, rfl, hw.2.2⟩
  · exact fun _ _ => .inl

/-- Room for so many bits is demanded, no more. -/
theorem reserve_answered (hlen : s.len ≤ s.capacity) (hfits : s.capacity ≤ s.maxSize) (n : Nat) :
    Demand.Answered storage ⟨.ok (), n, false⟩ none s w (reserve n (s, w)) := by
  refine ⟨nofun, fun _ hmax => ?_, fun _ hle => ?_, fun _ _ hlt hmax => ⟨n, rfl, ?_⟩⟩
  · have hmore : ¬ n ≤ s.capacity := Nat.not_le.mpr (hfits.trans_lt hmax)
    have hcheck : Capacity.check n s.maxSize = .error .capacityExceeded := Capacity.check_of_lt hmax
    rw [reserve, held_bind, if_neg hmore, hcheck]
    exact Post.rejected_refuse _ s w
  · have hroom : n ≤ s.capacity := hle
    rw [reserve, held_bind, if_pos hroom]
    exact ⟨rfl, .refl w⟩
  · have hmore : ¬ n ≤ s.capacity := Nat.not_le.mpr hlt
    have hcheck : Capacity.check n s.maxSize = .ok () := Capacity.check_of_le hmax
    rw [reserve, held_bind, if_neg hmore, hcheck]
    exact reallocate_grown (hlen.trans (Nat.le_of_lt hlt)) hmax

/-- Room is demanded for more bits than there are, and then there may be some ahead. -/
theorem reserveMore_answered (hfits : s.capacity ≤ s.maxSize) (n : Nat) :
    Demand.Answered storage ⟨.ok (), s.len + n, true⟩ none s w (reserveMore n (s, w)) := by
  refine ⟨nofun, fun _ hmax => ?_, fun _ hle => ?_, fun _ _ hlt hmax => ?_⟩
  · have hmore : ¬ s.len + n ≤ s.capacity := Nat.not_le.mpr (hfits.trans_lt hmax)
    have hgrow : Capacity.grow s.capacity (s.len + n) s.maxSize = .error .capacityExceeded :=
      Capacity.grow_of_lt hmax
    rw [reserveMore, held_bind]
    cases hrequired : s.required n with
    | error e =>
        obtain rfl := required_eq_error hrequired
        exact Post.rejected_refuse _ s w
    | ok m =>
        obtain rfl := required_eq_ok hrequired
        rw [ofExcept_bind_ok, if_neg hmore, hgrow]
        exact Post.rejected_refuse _ s w
  · have hroom : s.len + n ≤ s.capacity := hle
    rw [reserveMore, held_bind, required_of_le (hroom.trans hfits), ofExcept_bind_ok, if_pos hroom]
    exact ⟨rfl, .refl w⟩
  · have hmore : ¬ s.len + n ≤ s.capacity := Nat.not_le.mpr hlt
    have hmax : s.len + n ≤ s.maxSize := hmax
    obtain ⟨capacity, hgrow⟩ := Capacity.exists_grow s.capacity hmax
    have hbounds := Capacity.grow_bounds hgrow
    refine ⟨capacity, hgrow, ?_⟩
    rw [reserveMore, held_bind, required_of_le hmax, ofExcept_bind_ok, if_neg hmore, hgrow]
    exact reallocate_grown ((Nat.le_add_right _ _).trans hbounds.1) hbounds.2

/-! ## The operations -/

section Operations

variable (hlen : s.len ≤ s.capacity) (hfits : s.capacity ≤ s.maxSize)

include hlen hfits

/-- A push demands room for one more bit. -/
theorem push_answered (value : Bool) :
    Demand.Answered storage ⟨.ok (), s.len + 1, true⟩ none s w (push value (s, w)) := by
  have hstore : Settles storage (do
      let _ ← changeBit s.len (.replace value)
      setLen (s.len + 1) : BitAct σ α Unit) :=
    settles_of_keeps ((firm_changeBit _ _).bind fun _ => firm_setLen _) fun _ _ _ =>
      (keeps_changeBit _ _).bind fun _ => keeps_setLen _
  rw [push, held_bind]
  by_cases hfull : s.len = s.capacity
  · rw [if_pos hfull]
    exact (reserveMore_answered hfits 1).bind fun _ => hstore
  · rw [if_neg hfull]
    have hroom : s.len + 1 ≤ s.capacity := by omega
    exact Demand.answered_of_settled hfits hroom (hstore s w)

/-- Resizing demands room for the new length. -/
theorem resize_answered (n : Nat) (value : Bool) :
    Demand.Answered storage ⟨.ok (), n, false⟩ none s w (resize n value (s, w)) := by
  rw [resize, held_bind]
  by_cases hshort : n ≤ s.len
  · rw [if_pos hshort]
    exact Demand.answered_of_settled hfits (hshort.trans hlen) (settles_truncate n s w)
  · rw [if_neg hshort]
    apply (reserve_answered hlen hfits n).bind
    exact fun _ => (settles_fill value _ n).bind fun _ => settles_setLen n

/-- Bits that are moved aside leave room for as many as are to be put between them. -/
theorem openWindow_answered (position count : Nat) :
    Demand.Answered storage ⟨checkPosition position s.len, s.len + count, true⟩ none s w
      (openWindow position count (s, w)) := by
  rw [openWindow, held_bind]
  apply Demand.Answered.checked
  intro _
  by_cases hnone : count = 0
  · rw [if_pos hnone]
    have hroom : s.len + count ≤ s.capacity := by omega
    exact Demand.answered_of_settled hfits hroom ⟨rfl, .refl w⟩
  · rw [if_neg hnone]
    apply (reserveMore_answered hfits count).bind
    intro _
    apply settles_of_keeps ((firm_changeWords _).bind fun _ => firm_setLen _)
    exact fun _ _ _ => (keeps_move _ _ _).bind fun _ => keeps_setLen _

/-- An insertion demands a position within the bits, and room for the copies besides them. -/
theorem insertCopies_answered (position count : Nat) (value : Bool) :
    Demand.Answered storage ⟨checkPosition position s.len, s.len + count, true⟩ none s w
      (insertCopies position count value (s, w)) :=
  (openWindow_answered hlen hfits position count).bind fun _ => settles_fill value _ _

/-- An insertion demands a position within the bits, and room for the others besides them. -/
theorem insertAll_answered (position : Nat) (values : List Bool) :
    Demand.Answered storage ⟨checkPosition position s.len, s.len + values.length, true⟩ none s w
      (insertAll position values (s, w)) :=
  (openWindow_answered hlen hfits position values.length).bind fun _ => settles_write position values

/-- An extension demands room for the new bits besides the old ones. -/
theorem extendAll_answered (values : List Bool) :
    Demand.Answered storage ⟨.ok (), s.len + values.length, true⟩ none s w
      (extendAll values (s, w)) := by
  have hend : checkPosition s.len s.len = .ok () := checkPosition_eq_ok (Nat.le_refl _)
  rw [extendAll, held_bind, ← hend]
  exact insertAll_answered hlen hfits s.len values

/-- An assignment demands room for the new bits only. -/
theorem assignCopies_answered (count : Nat) (value : Bool) :
    Demand.Answered storage ⟨.ok (), count, false⟩ none s w (assignCopies count value (s, w)) := by
  apply (reserve_answered hlen hfits count).bind
  exact fun _ => (settles_fill value 0 count).bind fun _ => (settles_truncate count).bind
    fun _ => settles_setLen count

/-- An assignment demands room for the new bits only. -/
theorem assignAll_answered (values : List Bool) :
    Demand.Answered storage ⟨.ok (), values.length, false⟩ none s w (assignAll values (s, w)) := by
  apply (reserve_answered hlen hfits values.length).bind
  exact fun _ => (settles_write 0 values).bind fun _ => (settles_truncate _).bind
    fun _ => settles_setLen _

end Operations

/-- A bit is taken from the end without any request. -/
theorem settles_pop : Settles storage (pop : BitAct σ α (Option Bool)) :=
  settles_of_keeps firm_pop fun _ _ _ => keeps_pop

/-- A bit that is there is looked at, or changed. -/
theorem indexed_answered (hfits : s.capacity ≤ s.maxSize) {index : Nat} {act : BitAct σ α β}
    (hact : Settles storage act) :
    Demand.Answered storage ⟨checkIndex index s.len, 0, false⟩ none s w
      ((do ofExcept (checkIndex index s.len); act : BitAct σ α β) (s, w)) :=
  .checked fun _ => Demand.answered_of_settled hfits (Nat.zero_le _) (hact s w)

/-- Bits are erased within bounds, and no room is demanded. -/
theorem eraseSpan_answered (hfits : s.capacity ≤ s.maxSize) (span : Span) :
    Demand.Answered storage ⟨(span.within s.len).map fun _ => (), 0, false⟩ none s w
      (eraseSpan span (s, w)) := by
  rw [eraseSpan, held_bind]
  apply Demand.Answered.ofExcept_bind rfl
  intro bounds _
  apply Demand.answered_of_settled hfits (Nat.zero_le _)
  exact settles_of_keeps (firm_closeWindow _ _) (fun _ _ _ => keeps_closeWindow _ _) s w

/-! ## New bit sequences -/

/-- Work on a new bit sequence asks for all that is asked for. -/
theorem build_makes {handle : Handle} {work : BitAct σ α β}
    (hwork : Demand.Answered storage ⟨.ok (), n, false⟩ none (empty handle) w
      (work (empty handle, w))) :
    storage.Makes (empty handle) n (fun r => some r.1) w (build handle work w) :=
  hwork.owning (Region.release_empty Word.fits_shape handle.allocator)
    (fun _ w => keeps_dispose Event.request?_of_upkeep rfl w (.refl w)) ⟨rfl, rfl⟩ rfl

/-- A new bit sequence makes room for what it is to hold, and for nothing else. -/
theorem withCapacity_makes (n : Nat) (handle : Handle) :
    storage.Makes (empty handle) n some w (withCapacity n handle w) :=
  (build_makes (reserve_answered (Nat.le_refl _) (Nat.zero_le _) n)).answer fun _ => rfl

/-- Copies of a bit take room for as many bits. -/
theorem replicate_makes (count : Nat) (value : Bool) (handle : Handle) :
    storage.Makes (empty handle) count some w (replicate count value handle w) :=
  (build_makes (assignCopies_answered (Nat.zero_le _) (Nat.zero_le _) count value)).answer fun _ => rfl

/-- Given bits take room for as many bits. -/
theorem ofList_makes (values : List Bool) (handle : Handle) :
    storage.Makes (empty handle) values.length some w (ofList values handle w) :=
  (build_makes (assignAll_answered (Nat.zero_le _) (Nat.zero_le _) values)).answer fun _ => rfl

end BitSequence

end Growable
