import Growable.Proofs.BitSequence.Window
import Growable.Proofs.Checked.BitSequence

/-!
# Inserting and removing bits, checked

The operations that move bits about, with all the indexes and numbers that they compute.  The bits behind a
position end where the bits do, wherever they are moved; what is counted is what is there.

In between, the bits past the length need not be clear; all that an operation relies on then is the room for
its bits (`BitSequence.Loose`).
-/

namespace Growable.BitSequence

open Checked

variable {σ α β : Type}

/-- Puts a bit at the end. -/
def pushChecked (value : Bool) : Checked (BitSequence × World σ α) Unit := do
  let s ← ofAct Act.held
  let room ← ofOption s.capacityChecked
  if s.len = room then
    reserveMoreChecked 1
  let _ ← changeBitChecked s.len (.replace value)
  let len ← sum s.len 1
  ofAct (setLen len)

/-- Takes the last bit away, if there is one. -/
def popChecked : Checked (BitSequence × World σ α) (Option Bool) := do
  let s ← ofAct Act.held
  if s.len = 0 then
    return none
  let len ← difference s.len 1
  ofAct (setLen len)
  changeBitChecked len (.replace false)

/-- Keeps at most the first `n` bits. -/
def truncateChecked (n : Nat) : Checked (BitSequence × World σ α) Unit := do
  let s ← ofAct Act.held
  if s.len ≤ n then
    return
  changeWordsChecked (Word.Run.fillChecked false n s.len)
  ofAct (setLen n)

/-- Brings the sequence to a length, with copies of a bit where some are missing. -/
def resizeChecked (n : Nat) (value : Bool) : Checked (BitSequence × World σ α) Unit := do
  let s ← ofAct Act.held
  if n ≤ s.len then
    truncateChecked n
  else
    reserveChecked n
    changeWordsChecked (Word.Run.fillChecked value s.len n)
    ofAct (setLen n)

/-- Moves the bits from a position on up by `count`. -/
def openWindowChecked (position count : Nat) : Checked (BitSequence × World σ α) Unit := do
  let s ← ofAct Act.held
  ofAct (Act.ofExcept (checkPosition position s.len))
  if count = 0 then
    return
  reserveMoreChecked count
  let destination ← sum position count
  let moved ← difference s.len position
  changeWordsChecked fun words => Word.Run.moveChecked words position destination moved
  let len ← sum s.len count
  ofAct (setLen len)

/-- Moves the bits from `stop` on down to `start`, and clears the bits that this frees. -/
def closeWindowChecked (start stop : Nat) : Checked (BitSequence × World σ α) Unit := do
  let s ← ofAct Act.held
  if start = stop then
    return
  let tail ← difference s.len stop
  changeWordsChecked fun words => Word.Run.moveChecked words stop start tail
  let count ← difference stop start
  let len ← difference s.len count
  changeWordsChecked (Word.Run.fillChecked false len s.len)
  ofAct (setLen len)

/-- Writes bits one by one from an index on, `offset` of which are written already. -/
def writeChecked (index offset : Nat) : List Bool → Checked (BitSequence × World σ α) Unit
  | [] => return
  | value :: rest => do
    let place ← sum index offset
    let _ ← changeBitChecked place (.replace value)
    let offset ← sum offset 1
    writeChecked index offset rest

/-- Puts `count` copies of a bit at a position. -/
def insertCopiesChecked (position count : Nat) (value : Bool) : Checked (BitSequence × World σ α) Unit := do
  openWindowChecked position count
  let stop ← sum position count
  changeWordsChecked (Word.Run.fillChecked value position stop)

/-- Puts a bit at a position. -/
def insertChecked (position : Nat) (value : Bool) : Checked (BitSequence × World σ α) Unit :=
  insertCopiesChecked position 1 value

/-- Puts some bits at a position. -/
def insertAllChecked (position : Nat) (values : List Bool) : Checked (BitSequence × World σ α) Unit := do
  openWindowChecked position values.length
  writeChecked position 0 values

/-- Puts some bits at the end. -/
def extendAllChecked (values : List Bool) : Checked (BitSequence × World σ α) Unit := do
  let s ← ofAct Act.held
  insertAllChecked s.len values

/-- Puts what an iterator yields at the end, one by one. -/
def pushFeedChecked : Feed Bool → Checked (BitSequence × World σ α) Unit
  | .finish => inWorld (ofAct (World.record .ended))
  | .raise message => do
    inWorld (ofAct (World.record .feedFaulted))
    ofAct (Act.fault (.raised message))
  | .yield value rest => do
    inWorld (ofAct (World.record .yielded))
    pushChecked value
    pushFeedChecked rest

/-- Puts what an iterator yields at a position.  If a bit is refused, the ones before it are taken away
again. -/
def insertFeedChecked (position : Nat) (feed : Feed Bool) : Checked (BitSequence × World σ α) Unit := do
  let before ← ofAct Act.held
  ofAct (Act.ofExcept (checkPosition position before.len))
  onRefusal (pushFeedChecked feed) do
    let s ← ofAct Act.held
    let count ← difference s.len before.len
    inWorld (ofAct (World.note (.interruptedBits count)))
    truncateChecked before.len
  let s ← ofAct Act.held
  changeWordsChecked (Word.Run.reverseChecked position before.len)
  changeWordsChecked (Word.Run.reverseChecked before.len s.len)
  changeWordsChecked (Word.Run.reverseChecked position s.len)

/-- Puts what an iterator yields at the end. -/
def extendFeedChecked (feed : Feed Bool) : Checked (BitSequence × World σ α) Unit := do
  let s ← ofAct Act.held
  insertFeedChecked s.len feed

/-- Takes the bit at an index away. -/
def eraseChecked (index : Nat) : Checked (BitSequence × World σ α) Bool := do
  let s ← ofAct Act.held
  ofAct (Act.ofExcept (checkIndex index s.len))
  let value ← bitChecked index
  let next ← sum index 1
  closeWindowChecked index next
  return value

/-- Takes the bits of a span away. -/
def eraseSpanChecked (span : Span) : Checked (BitSequence × World σ α) Unit := do
  let s ← ofAct Act.held
  let (start, stop) ← ofAct (Act.ofExcept (span.within s.len))
  closeWindowChecked start stop

/-! ## Nothing fails -/

variable {s : BitSequence} {w : World σ α} {m : Multiset (Asset α)}

/-- A bit is put into the first place past the end, where there is room. -/
theorem runs_store {len : Nat} (value : Bool) (hroom : len < s.capacity) (hlimit : s.capacity ≤ Size.limit) :
    (do let _ ← changeBitChecked len (.replace value)
        let len ← sum len 1
        ofAct (setLen len) : Checked (BitSequence × World σ α) Unit).Runs
      (do let _ ← changeBit len (.replace value); setLen (len + 1)) (s, w) := by
  have hlen : len + 1 ≤ Size.limit := Nat.le_trans hroom hlimit
  exact (runs_changeBit hroom _).bind fun _ u _ => runs_sum hlen (runs_ofAct _ u)

/-- After growing, the bit behind the last one is within the words. -/
theorem runs_push (h : Counted m (s, w)) (value : Bool) : (pushChecked value).Runs (push value) (s, w) := by
  refine runs_held (runs_value h.capacityChecked_eq (runs_ite (fun _ => ?_) fun hroom => ?_))
  · refine (runs_reserveMore h 1).bind_of (h.reserveMore_meets 1) fun _ u hu => ?_
    obtain ⟨hcounted, -, hroom⟩ := hu
    exact runs_store value hroom hcounted.capacity_le
  · exact runs_store value (Nat.lt_of_le_of_ne h.sound.len_le hroom) h.capacity_le

/-- A push leaves a sequence whose capacity is still a size. -/
theorem Counted.push_meets (h : Counted m (s, w)) (value : Bool) :
    (push value (s, w)).Meets (.always (Counted m)) :=
  (h.meets (BitSequence.push_meets value h.sound)
    (keeps_push (fun _ _ => trivial) (Nat.le_refl _) capacity_le_limit value)).imp
    (fun _ _ hu => hu.1) (fun _ _ hu => hu.1) (fun _ _ hu => hu.1)

/-- The last bit is there if the length is not zero. -/
theorem runs_pop (h : Sound m (s, w)) : popChecked.Runs pop (s, w) := by
  refine runs_held (runs_ite (fun _ => runs_pure _ _) fun hsome => ?_)
  have hpos : 0 < s.len := Nat.pos_of_ne_zero hsome
  refine runs_difference hpos ((runs_ofAct _ _).bind_of (setLen_meets (s.len - 1) h.loose) fun _ u hu => ?_)
  obtain ⟨t, w'⟩ := u
  refine runs_changeBit ?_ _
  rw [hu.capacity_eq]
  exact Nat.lt_of_lt_of_le (Nat.sub_lt hpos Nat.one_pos) h.len_le

/-- What is cut off is a run of bits within the capacity. -/
theorem runs_truncate (hlen : s.len ≤ s.capacity) (hlimit : s.capacity ≤ Size.limit) (n : Nat) :
    (truncateChecked n).Runs (truncate n) (s, w) := by
  refine runs_held (runs_ite (fun _ => runs_pure _ _) fun _ => ?_)
  exact (runs_fill hlimit false n hlen).bind fun _ u _ => runs_ofAct _ u

/-- As many words as before are there for every further bit. -/
theorem runs_write {capacity len : Nat} {f : Nat → Bool} (hs : Loose m capacity len f (s, w))
    (hlimit : capacity ≤ Size.limit) (index offset : Nat) (values : List Bool)
    (hroom : index + offset + values.length ≤ capacity) :
    (writeChecked index offset values).Runs (write (index + offset) values) (s, w) := by
  induction values generalizing offset f s w with
  | nil => exact runs_pure _ _
  | cons value rest ih =>
      rw [List.length_cons] at hroom
      have hplace : index + offset < capacity := by omega
      refine runs_sum (by omega) ((runs_changeBit (hplace.trans_eq hs.capacity_eq.symm) _).bind_of
        (changeBit_meets (.replace value) hs hplace) fun _ u hu => runs_sum (by omega) ?_)
      exact ih hu.2 (offset + 1) (by omega)

theorem Counted.runs_truncate (h : Counted m (s, w)) (n : Nat) :
    (truncateChecked n).Runs (truncate n) (s, w) :=
  BitSequence.runs_truncate h.sound.len_le h.capacity_le n

/-- The bits that are filled are within the room that was reserved. -/
theorem runs_resize (h : Counted m (s, w)) (n : Nat) (value : Bool) :
    (resizeChecked n value).Runs (resize n value) (s, w) := by
  refine runs_held (runs_ite (fun _ => h.runs_truncate n) fun _ => ?_)
  refine (runs_reserve h n).bind_of (h.reserve_meets n) fun _ u hu => ?_
  obtain ⟨t, w'⟩ := u
  obtain ⟨hcounted, -, hroom⟩ := hu
  exact (runs_fill hcounted.capacity_le value s.len hroom).bind
    fun _ u _ => runs_ofAct _ u

/-! ### Windows -/

/-- The length after an insertion is computed only where it is admitted, and the run that moves
stays within the words. -/
theorem runs_openWindow (h : Counted m (s, w)) (position count : Nat) :
    (openWindowChecked position count).Runs (openWindow position count) (s, w) := by
  refine runs_held (runs_ofExcept fun _ hcheck => runs_ite (fun _ => runs_pure _ _) fun _ => ?_)
  have hposition : position ≤ s.len := le_of_checkPosition_eq_ok hcheck
  refine (runs_reserveMore h count).bind_of (h.reserveMore_meets count) fun _ u hu => ?_
  obtain ⟨t, w'⟩ := u
  have hcounted : Counted m (t, w') := hu.1
  have hroom : s.len + count ≤ t.capacity := hu.2.2
  have hlimit : s.len + count ≤ Size.limit := hroom.trans hcounted.capacity_le
  have hsource : position + (s.len - position) ≤ t.capacity := by omega
  have hdestination : position + count + (s.len - position) ≤ t.capacity := by omega
  refine runs_sum (by omega) (runs_difference hposition ?_)
  exact (runs_move hcounted.capacity_le hsource hdestination).bind
    fun _ u _ => runs_sum hlimit (runs_ofAct _ u)

/-- An open window lies within what can be counted. -/
theorem Counted.openWindow_meets (h : Counted m (s, w)) (position count : Nat) :
    (openWindow position count (s, w)).Meets
      ⟨fun _ u => Counted m u ∧ position + count ≤ u.1.capacity, fun _ _ => True, fun _ _ => True⟩ := by
  have hunder := keeps_openWindow (fun _ _ => trivial) (Nat.le_refl _) capacity_le_limit position count
    (s, w) ⟨⟨rfl, h.capacity_le⟩, .refl (Q := fun _ => True) w⟩
  refine ((BitSequence.openWindow_meets position count h.sound).and hunder).imp ?_
    (fun _ _ _ => trivial) (fun _ _ _ => trivial)
  intro _ u hu
  obtain ⟨hopened, hkept⟩ := hu
  have hposition := hopened.position_le
  have hlen := hopened.len_eq
  have hroom := hopened.sound.valid.len_le
  exact ⟨⟨hopened.sound, hkept.1.2⟩, by omega⟩

/-- The copies fill the window that was opened for them. -/
theorem runs_insertCopies (h : Counted m (s, w)) (position count : Nat) (value : Bool) :
    (insertCopiesChecked position count value).Runs (insertCopies position count value) (s, w) := by
  refine (runs_openWindow h position count).bind_of (h.openWindow_meets position count) fun _ u hu => ?_
  obtain ⟨t, w'⟩ := u
  obtain ⟨hcounted, hroom⟩ := hu
  refine runs_sum (hroom.trans hcounted.capacity_le) ?_
  exact runs_fill hcounted.capacity_le value position hroom

/-- One bit is a copy of itself. -/
theorem runs_insert (h : Counted m (s, w)) (position : Nat) (value : Bool) :
    (insertChecked position value).Runs (insert position value) (s, w) :=
  runs_insertCopies h position 1 value

/-- The bits are written to the window that was opened for them. -/
theorem runs_insertAll (h : Counted m (s, w)) (position : Nat) (values : List Bool) :
    (insertAllChecked position values).Runs (insertAll position values) (s, w) := by
  refine (runs_openWindow h position values.length).bind_of (h.openWindow_meets position values.length)
    fun _ u hu => ?_
  obtain ⟨t, w'⟩ := u
  obtain ⟨hcounted, hroom⟩ := hu
  exact runs_write hcounted.sound.loose hcounted.capacity_le position 0 values hroom

/-- The position of an extension is the length. -/
theorem runs_extendAll (h : Counted m (s, w)) (values : List Bool) :
    (extendAllChecked values).Runs (extendAll values) (s, w) :=
  runs_held (runs_insertAll h s.len values)

/-- The run that moves down is what is behind the window. -/
theorem runs_closeWindow (h : Counted m (s, w)) {start stop : Nat} (hstart : start ≤ stop)
    (hstop : stop ≤ s.len) : (closeWindowChecked start stop).Runs (closeWindow start stop) (s, w) := by
  refine runs_held (runs_ite (fun _ => runs_pure _ _) fun _ => runs_difference hstop ?_)
  have hroom := h.sound.len_le
  have hcount : stop - start ≤ s.len := (Nat.sub_le _ _).trans hstop
  have hsource : stop + (s.len - stop) ≤ s.capacity := by omega
  have hdestination : start + (s.len - stop) ≤ s.capacity := by omega
  refine (runs_move h.capacity_le hsource hdestination).bind_of
    (move_meets stop start (s.len - stop) h.sound.loose hsource hdestination) fun _ u hu => ?_
  obtain ⟨t, w'⟩ := u
  have hsame : t.capacity = s.capacity := hu.capacity_eq
  refine runs_difference hstart (runs_difference hcount ?_)
  exact (runs_fill (hsame.trans_le h.capacity_le) false _ (hroom.trans_eq hsame.symm)).bind
    fun _ u _ => runs_ofAct _ u

/-- The window of one bit ends within the length. -/
theorem runs_erase (h : Counted m (s, w)) (index : Nat) : (eraseChecked index).Runs (erase index) (s, w) := by
  refine runs_held (runs_ofExcept fun _ hcheck => ?_)
  have hindex : index < s.len := lt_of_checkIndex_eq_ok hcheck
  have hplace : index < s.capacity := hindex.trans_le h.sound.len_le
  refine (runs_bit hplace).bind_of (bit_meets hplace) fun value u hu => ?_
  obtain ⟨-, rfl⟩ := hu
  refine runs_sum (Nat.le_trans hindex h.len_le) ?_
  exact runs_answered _ (runs_closeWindow h (Nat.le_succ index) hindex)

/-- A span within the length has its start before its end. -/
theorem runs_eraseSpan (h : Counted m (s, w)) (span : Span) :
    (eraseSpanChecked span).Runs (eraseSpan span) (s, w) := by
  refine runs_held (runs_ofExcept fun bounds hbounds => ?_)
  obtain ⟨hstart, hstop⟩ := Span.bounds_of_within hbounds
  exact runs_closeWindow h hstart hstop

/-! ### Bits that come one by one -/

/-- Each push leaves a sequence that can take the next one. -/
theorem runs_pushFeed (h : Counted m (s, w)) (feed : Feed Bool) :
    (pushFeedChecked feed).Runs (pushFeed feed) (s, w) := by
  induction feed generalizing s w with
  | finish => exact (runs_ofAct _ _).inWorld
  | raise message => exact runs_record (runs_ofAct _ _)
  | yield value rest ih =>
      have hasked := h.record (e := .yielded) rfl rfl
      refine runs_record ((runs_push hasked value).bind_of (hasked.push_meets value) ?_)
      exact fun _ u hu => ih hu

/-- As many words as before are there for the second and the third reversal. -/
theorem runs_turned {capacity len : Nat} {f : Nat → Bool} {u : BitSequence × World σ α}
    (hu : Loose m capacity len f u) (hlimit : capacity ≤ Size.limit) {position middle stop : Nat}
    (hstop : stop ≤ capacity) (hmiddle : middle ≤ stop) (hposition : position ≤ stop) :
    (do changeWordsChecked (Word.Run.reverseChecked middle stop)
        changeWordsChecked (Word.Run.reverseChecked position stop) :
        Checked (BitSequence × World σ α) Unit).Runs
      (do changeWords (Word.Run.reverse middle stop); changeWords (Word.Run.reverse position stop)) u := by
  obtain ⟨t, w'⟩ := u
  have hsame : t.capacity = capacity := hu.capacity_eq
  refine (runs_reverse (hsame.trans_le hlimit) hmiddle (hstop.trans_eq hsame.symm)).bind_of
    (reverse_meets middle hu hstop) fun _ v hv => ?_
  obtain ⟨t', w''⟩ := v
  have hsame' : t'.capacity = capacity := hv.capacity_eq
  exact runs_reverse (hsame'.trans_le hlimit) hposition (hstop.trans_eq hsame'.symm)

/-- What was pushed is counted from the length before, and turned within the length after. -/
theorem runs_insertFeed (h : Counted m (s, w)) (position : Nat) (feed : Feed Bool) :
    (insertFeedChecked position feed).Runs (insertFeed position feed) (s, w) := by
  refine runs_held (runs_ofExcept fun _ hcheck => ?_)
  have hposition : position ≤ s.len := le_of_checkPosition_eq_ok hcheck
  have hpushed := h.meets (pushFeed_meets feed h.sound)
    (keeps_pushFeed (fun _ _ => trivial) (Nat.le_refl _) capacity_le_limit feed)
  have hlonger : ∀ {t : BitSequence} {xs : List Bool}, t.bits = s.bits ++ xs → s.len ≤ t.len :=
    fun hbits => (of_bits_append hbits).1 ▸ Nat.le_add_right _ _
  have hdone : (pushFeed feed (s, w)).Meets
      ⟨fun _ u => Counted m u ∧ s.len ≤ u.1.len, fun _ _ => True, fun _ _ => True⟩ :=
    hpushed.imp (fun _ _ hu => ⟨hu.1, hlonger hu.2.2⟩) (fun _ _ _ => trivial) (fun _ _ _ => trivial)
  refine runs_onRefusal (runs_pushFeed h feed) hdone ?_ fun _ u hu => ?_
  · intro e u hrefused
    rw [hrefused] at hpushed
    obtain ⟨hcounted, -, n, hbits⟩ := hpushed
    refine runs_held (runs_difference (hlonger hbits) (runs_record ?_))
    exact (hcounted.record rfl rfl).runs_truncate s.len
  · obtain ⟨t, w'⟩ := u
    obtain ⟨hcounted, hlen⟩ := hu
    have hroom := hcounted.sound.len_le
    refine runs_held ((runs_reverse hcounted.capacity_le hposition (hlen.trans hroom)).bind_of
      (reverse_meets position hcounted.sound.loose (hlen.trans hroom)) fun _ u hu => ?_)
    exact runs_turned hu hcounted.capacity_le hroom hlen (hposition.trans hlen)

/-- The position of an extension is the length. -/
theorem runs_extendFeed (h : Counted m (s, w)) (feed : Feed Bool) :
    (extendFeedChecked feed).Runs (extendFeed feed) (s, w) :=
  runs_held (runs_insertFeed h s.len feed)

end Growable.BitSequence
