import Growable.Proofs.BitSequence.Content

/-!
# What moving bits aside does

A window of bits is opened at a position, and written; or it is closed again.  What an iterator yields is
rotated into place instead: the bits behind the position and the new bits are reversed, each run by
itself, and then both together.

* `insertCopies_meets`, `insertAll_meets` — through a window;
* `insertFeed_meets` — by three reversals;
* `erase_meets`, `eraseSpan_meets` — a window is closed.
-/

namespace Growable.BitSequence

open Word.Run (bitAt overlaid overlaid_of_mem overlaid_of_not_mem Rewrites)

variable {σ α : Type} {s : BitSequence} {w : World σ α} {m : Multiset (Asset α)}
  {capacity len : Nat} {f : Nat → Bool}

/-! ## Windows -/

/-- A window of `count` bits is open at a position: the bits before it are those of `s`, and so are the
bits behind it, which moved up. -/
structure Opened (m : Multiset (Asset α)) (s : BitSequence) (position count : Nat)
    (u : BitSequence × World σ α) : Prop where
  sound : Sound m u
  position_le : position ≤ s.len
  len_eq : u.1.len = s.len + count
  front : ∀ i < position, bitAt u.1.words i = bitAt s.words i
  back : ∀ i, position ≤ i → bitAt u.1.words (i + count) = bitAt s.words i

/-- The refusal of a window is the refusal of every insertion there. -/
theorem refused_of_checkPosition {position : Nat} {e : SequenceError} (hs : Sound m (s, w))
    (he : checkPosition position s.len = .error e) (ys : List Bool) :
    (follows m s (ListAct.insertAll position ys)).refused e (s, w) := by
  obtain ⟨hfar, rfl⟩ := checkPosition_eq_error he
  apply follows_refused _ hs
  rw [ListAct.insertAll_of_gt (by rwa [length_bits]), length_bits]

/-- A window is open where there is room for it, and otherwise nothing has happened. -/
theorem openWindow_meets (position count : Nat) (hs : Sound m (s, w)) :
    (openWindow position count (s, w)).Meets ⟨fun _ u => Opened m s position count u,
      fun e u => ∀ ys, (follows m s (ListAct.insertAll position ys)).refused e u,
      fun _ _ => False⟩ := by
  simp only [openWindow, Act.bind_meets, Act.held_meets, Act.ofExcept_meets, Act.ite_meets,
    Act.pure_meets]
  refine ⟨fun _ hcheck => ?_, fun e he => refused_of_checkPosition hs he⟩
  have hposition := le_of_checkPosition_eq_ok hcheck
  constructor
  · intro hnone
    subst hnone
    exact ⟨hs, hposition, rfl, fun _ _ => rfl, fun _ _ => rfl⟩
  · intro _
    apply (reserveMore_meets count hs).imp
    · intro _ u hu
      obtain ⟨t, w'⟩ := u
      obtain ⟨ht, hsame, hlen, _, hroom⟩ := hu
      dsimp only at hsame hlen hroom ⊢
      apply (move_meets position (position + count) (s.len - position) ht.loose (by omega)
        (by omega)).of_returns
      intro _ u hu
      obtain ⟨t₁, w₁⟩ := u
      dsimp only
      apply (setLen_meets (s.len + count) hu).of_returns
      intro _ u hu
      obtain ⟨t₂, w₂⟩ := u
      refine ⟨hu.sound hroom fun i hi => ?_, hposition, hu.len_eq, fun i hi => ?_, fun i hi => ?_⟩
      · rw [overlaid_of_not_mem (by omega)]
        exact ht.clear (by omega)
      · rw [hu.bits_eq, overlaid_of_not_mem (by omega)]
        exact hsame i
      · rw [hu.bits_eq]
        by_cases hin : i < s.len
        · rw [overlaid_of_mem (by omega) (by omega), hsame]
          congr 1
          omega
        · rw [overlaid_of_not_mem (by omega), ht.clear (by omega), hs.clear (by omega)]
    · intro e u hu ys
      obtain ⟨hu, hlack, hsame⟩ := hu
      apply follows_lack _ hu hlack (congrArg bits hsame)
      rw [ListAct.insertAll_of_le (by rwa [length_bits])]
      exact Outcome.accepted_done _ _
    · exact fun _ _ hu => hu.2.elim

/-- The bits `ys` are written into the window. -/
theorem Opened.written {position : Nat} {ys : List Bool} {t : BitSequence} {w' : World σ α}
    {u : BitSequence × World σ α} {g : Nat → Bool} (ho : Opened m s position ys.length (t, w'))
    (hu : Loose m t.capacity t.len (overlaid (bitAt t.words) position (position + ys.length) g) u)
    (hg : ∀ i < ys.length, ys[i]? = some (g (position + i))) :
    (follows m s (ListAct.insertAll position ys)).done () u := by
  obtain ⟨t', w''⟩ := u
  have hposition := ho.position_le
  have hlen : t.len = s.len + ys.length := ho.len_eq
  apply follows_done (ListAct.insertAll_of_le (by rwa [length_bits]) ys)
  · apply hu.sound ho.sound.len_le
    intro i hi
    rw [overlaid_of_not_mem (by omega)]
    exact ho.sound.clear hi
  · apply hu.bits_eq_splice hposition (by omega)
    · intro i hi
      rw [overlaid_of_not_mem (by omega)]
      exact ho.front i hi
    · intro i hi
      rw [overlaid_of_mem (by omega) (by omega)]
      exact hg i hi
    · intro i hi _
      rw [overlaid_of_not_mem (by omega), ← ho.back i hi]
      congr 1
      omega

/-- Copies of a bit come in at a position, unless memory is lacking for them. -/
theorem insertCopies_meets (position count : Nat) (value : Bool) (hs : Sound m (s, w)) :
    (insertCopies position count value (s, w)).Meets
      (follows m s (ListAct.insertAll position (List.replicate count value))) := by
  simp only [insertCopies, Act.bind_meets]
  apply (openWindow_meets position count hs).imp
  · intro _ u hu
    obtain ⟨t, w'⟩ := u
    have hroom := hu.sound.len_le
    have hposition := hu.position_le
    have hlen : t.len = s.len + count := hu.len_eq
    have hcount : (List.replicate count value).length = count := List.length_replicate
    have hstop : position + count ≤ t.capacity := by omega
    apply (fill_meets value position hu.sound.loose hstop).of_returns
    intro _ u' hu'
    rw [← hcount] at hu hu'
    apply hu.written hu'
    intro i hi
    rw [hcount] at hi
    rw [List.getElem?_replicate, if_pos hi]
  · exact fun e u hu => hu _
  · exact fun _ _ => False.elim

/-- One bit comes in at a position, unless memory is lacking for it. -/
theorem insert_meets (position : Nat) (value : Bool) (hs : Sound m (s, w)) :
    (insert position value (s, w)).Meets (follows m s (ListAct.insertAll position [value])) :=
  insertCopies_meets position 1 value hs

/-- Bits are written one by one. -/
theorem write_meets (index : Nat) (values : List Bool) (hs : Loose m capacity len f (s, w))
    (hroom : index + values.length ≤ capacity) :
    (write index values (s, w)).Meets (.returns fun _ u => Loose m capacity len
      (overlaid f index (index + values.length) fun i => values[i - index]?.getD false) u) := by
  induction values generalizing index f s w with
  | nil =>
      have hsame : overlaid f index index (fun i => ([] : List Bool)[i - index]?.getD false) = f :=
        funext fun i => overlaid_of_not_mem (by omega)
      rw [write, List.length_nil, Nat.add_zero, hsame, Act.pure_meets]
      exact hs
  | cons value rest ih =>
      rw [List.length_cons] at hroom ⊢
      simp only [write, Act.bind_meets]
      have hindex : index < capacity := by omega
      apply (changeBit_meets (.replace value) hs hindex).of_returns
      intro _ u hu
      obtain ⟨t, w'⟩ := u
      apply (ih (index + 1) hu.2 (by omega)).of_returns
      intro _ u hu
      have hsame : overlaid f index (index + (rest.length + 1))
          (fun i => (value :: rest)[i - index]?.getD false) = overlaid
            (fun i => if i = index then value else f i) (index + 1) (index + 1 + rest.length)
            (fun i => rest[i - (index + 1)]?.getD false) := by
        funext i
        by_cases hrest : index + 1 ≤ i ∧ i < index + 1 + rest.length
        · have hi : i - index = i - (index + 1) + 1 := by omega
          rw [overlaid_of_mem hrest.1 hrest.2, overlaid_of_mem (by omega) (by omega), hi,
            List.getElem?_cons_succ]
        · rw [overlaid_of_not_mem hrest]
          by_cases hfirst : i = index
          · rw [if_pos hfirst, overlaid_of_mem (by omega) (by omega), hfirst, Nat.sub_self]
            rfl
          · rw [if_neg hfirst, overlaid_of_not_mem (by omega)]
      rw [hsame]
      exact hu

/-- Given bits come in at a position, unless memory is lacking for them. -/
theorem insertAll_meets (position : Nat) (values : List Bool) (hs : Sound m (s, w)) :
    (insertAll position values (s, w)).Meets
      (follows m s (ListAct.insertAll position values)) := by
  simp only [insertAll, Act.bind_meets]
  apply (openWindow_meets position values.length hs).imp
  · intro _ u hu
    obtain ⟨t, w'⟩ := u
    have hroom := hu.sound.len_le
    have hposition := hu.position_le
    have hlen : t.len = s.len + values.length := hu.len_eq
    apply (write_meets position values hu.sound.loose (by omega)).of_returns
    intro _ u' hu'
    apply hu.written hu'
    intro i hi
    rw [Nat.add_sub_cancel_left, List.getElem?_eq_getElem hi]
    rfl
  · exact fun e u hu => hu _
  · exact fun _ _ => False.elim

/-- Given bits come behind the others, unless memory is lacking for them. -/
theorem extendAll_meets (values : List Bool) (hs : Sound m (s, w)) :
    (extendAll values (s, w)).Meets (follows m s (ListAct.append values)) := by
  have hinsert := insertAll_meets s.len values hs
  rw [follows, ← length_bits s, ListAct.insertAll_length, length_bits] at hinsert
  exact hinsert

/-- The bits of a window within the bits are taken out. -/
theorem closeWindow_meets {start stop : Nat} (hs : Sound m (s, w)) (hstart : start ≤ stop)
    (hstop : stop ≤ s.len) :
    (closeWindow start stop (s, w)).Meets (.returns fun _ u =>
      Sound m u ∧ u.1.bits = s.bits.take start ++ s.bits.drop stop) := by
  have hroom := hs.len_le
  simp only [closeWindow, Act.bind_meets, Act.held_meets, Act.ite_meets, Act.pure_meets]
  constructor
  · intro hempty
    exact ⟨hs, by rw [hempty, List.take_append_drop]⟩
  · intro _
    apply (move_meets stop start (s.len - stop) hs.loose (by omega) (by omega)).of_returns
    intro _ u hu
    obtain ⟨t₁, w₁⟩ := u
    apply (fill_meets false (s.len - (stop - start)) hu hroom).of_returns
    intro _ u hu
    obtain ⟨t₂, w₂⟩ := u
    dsimp only
    apply (setLen_meets (s.len - (stop - start)) hu).of_returns
    intro _ u hu
    obtain ⟨t₃, w₃⟩ := u
    constructor
    · apply hu.sound (by omega)
      intro i hi
      by_cases hin : i < s.len
      · exact overlaid_of_mem hi hin
      · rw [overlaid_of_not_mem (by omega), overlaid_of_not_mem (by omega)]
        exact hs.clear (by omega)
    · have hsplice : t₃.bits = s.bits.take start ++ [] ++ s.bits.drop stop := by
        apply hu.bits_eq_splice (by omega)
        · rw [List.length_nil]
          omega
        · intro i hi
          rw [overlaid_of_not_mem (by omega), overlaid_of_not_mem (by omega)]
        · exact fun i hi => absurd hi (Nat.not_lt_zero i)
        · intro i hi hlt
          rw [List.length_nil, overlaid_of_not_mem (by omega), overlaid_of_mem (by omega) (by omega)]
          congr 1
          omega
      rwa [List.append_nil] at hsplice

/-- A bit leaves, and the ones behind it move up. -/
theorem erase_meets (index : Nat) (hs : Sound m (s, w)) :
    (erase index (s, w)).Meets (mirrors m s (ListAct.erase index)) := by
  have hroom := hs.len_le
  simp only [erase, Act.bind_meets, Act.held_meets, Act.ofExcept_meets, Act.pure_meets]
  constructor
  · intro _ hcheck
    have hindex := lt_of_checkIndex_eq_ok hcheck
    apply (bit_meets (Nat.lt_of_lt_of_le hindex hroom)).of_returns
    intro old u hu
    obtain ⟨rfl, rfl⟩ := hu
    apply (closeWindow_meets hs (Nat.le_succ index) hindex).of_returns
    intro _ u hu
    apply follows_done (ListAct.erase_of_some (getElem?_bits hindex)) hu.1
    rw [hu.2, List.eraseIdx_eq_take_drop_succ]
  · intro e he
    obtain ⟨hfar, rfl⟩ := checkIndex_eq_error he
    apply follows_refused _ hs
    rw [ListAct.erase_of_none (List.getElem?_eq_none (by rwa [length_bits])), length_bits]

/-- A span of bits leaves, and the ones behind it move up. -/
theorem eraseSpan_meets (span : Span) (hs : Sound m (s, w)) :
    (eraseSpan span (s, w)).Meets (mirrors m s (ListAct.eraseSpan span)) := by
  simp only [eraseSpan, Act.bind_meets, Act.held_meets, Act.ofExcept_meets]
  constructor
  · intro r hspan
    obtain ⟨start, stop⟩ := r
    have hbounds := Span.bounds_of_within hspan
    apply (closeWindow_meets hs hbounds.1 hbounds.2).of_returns
    intro _ u hu
    rw [← length_bits s] at hspan
    exact follows_done (ListAct.eraseSpan_of_ok hspan) hu.1 hu.2
  · intro e he
    rw [← length_bits s] at he
    exact follows_refused (ListAct.eraseSpan_of_error he) hs

/-! ## The bits of an iterator -/

/-- What an iterator yields comes behind the bits, up to where memory is lacking or the iterator
faults. -/
theorem pushFeed_meets (feed : Feed Bool) (hs : Sound m (s, w)) :
    (pushFeed feed (s, w)).Meets (soundly m
      ⟨fun _ t => feed.raised? = none ∧ t.bits = s.bits ++ feed.members,
        fun e t => e.IsLack ∧ ∃ n, t.bits = s.bits ++ feed.members.take n,
        fun f t => (∃ message, feed.raised? = some message ∧ f = .raised message) ∧
          t.bits = s.bits ++ feed.members⟩) := by
  induction feed generalizing s w with
  | finish =>
      simp only [pushFeed, Act.inWorld_meets]
      apply (World.record_meets rfl rfl hs.owns).of_returns
      intro _ w' h'
      exact ⟨⟨hs.valid, h'⟩, rfl, (List.append_nil _).symm⟩
  | raise message =>
      simp only [pushFeed, Act.bind_meets, Act.inWorld_meets]
      apply (World.record_meets rfl rfl hs.owns).of_returns
      intro _ w' h'
      exact ⟨⟨hs.valid, h'⟩, ⟨message, rfl, rfl⟩, (List.append_nil _).symm⟩
  | yield value rest ih =>
      simp only [pushFeed, Act.bind_meets, Act.inWorld_meets]
      apply (World.record_meets rfl rfl hs.owns).of_returns
      intro _ w' h'
      have hs' : Sound m (s, w') := ⟨hs.valid, h'⟩
      apply (push_meets value hs').imp
      · intro _ u hu
        obtain ⟨t, w''⟩ := u
        obtain ⟨ht, hpush⟩ := hu
        injection hpush with _ hbits
        have happend : ∀ xs, t.bits ++ xs = s.bits ++ (value :: xs) := by
          intro xs
          rw [← hbits, List.append_assoc, List.singleton_append]
        apply soundly_imp (ih ht)
        · intro _ t' ht'
          exact ⟨ht'.1, ht'.2.trans (happend _)⟩
        · intro e t' ht'
          obtain ⟨hlack, n, hn⟩ := ht'
          exact ⟨hlack, n + 1, hn.trans (happend _)⟩
        · intro f t' ht'
          exact ⟨ht'.1, ht'.2.trans (happend _)⟩
      · intro e u hu
        rcases hu with ⟨hu, hrefused | hlack⟩
        · cases hrefused
        · exact ⟨hu, hlack.1, 0, hlack.2.2.trans (List.append_nil _).symm⟩
      · intro f u hu
        cases hu.2

/-- The bits of a longer sequence, one by one. -/
theorem of_bits_append {t : BitSequence} {xs : List Bool} (h : t.bits = s.bits ++ xs) :
    t.len = s.len + xs.length ∧ (∀ i < s.len, bitAt t.words i = bitAt s.words i) ∧
      ∀ i < xs.length, xs[i]? = some (bitAt t.words (s.len + i)) := by
  have hlen : t.len = s.len + xs.length := by
    rw [← length_bits t, h, List.length_append, length_bits]
  refine ⟨hlen, fun i hi => ?_, fun i hi => ?_⟩
  · have hsame : t.bits[i]? = s.bits[i]? := by
      rw [h, List.getElem?_append_left (by rwa [length_bits])]
    rw [getElem?_bits (by omega), getElem?_bits hi] at hsame
    exact Option.some.inj hsame
  · have hsame : t.bits[s.len + i]? = xs[i]? := by
      rw [h, List.getElem?_append_right (by rw [length_bits]; omega), length_bits,
        Nat.add_sub_cancel_left]
    rw [← hsame, getElem?_bits (by omega)]

/-- Brings the bits from `middle` on to a position before them, by three reversals. -/
def rotate (position middle : Nat) : BitAct σ α Unit := do
  let s ← Act.held
  changeWords (Word.Run.reverse position middle)
  changeWords (Word.Run.reverse middle s.len)
  changeWords (Word.Run.reverse position s.len)

/-- What an iterator yields is appended and brought to its position. -/
theorem insertFeed_eq_rotate (position : Nat) (feed : Feed Bool) :
    (insertFeed position feed : BitAct σ α Unit) = (do
      let before ← Act.held
      Act.ofExcept (checkPosition position before.len)
      Act.onRefusal (pushFeed feed) do
        let s ← Act.held
        Act.inWorld (World.note (.interruptedBits (s.len - before.len)))
        truncate before.len
      rotate position before.len) := rfl

/-- Three reversals change nothing but the words. -/
theorem rotate_done {position middle : Nat} (hposition : position ≤ middle) (hmiddle : middle ≤ s.len)
    (hroom : s.len ≤ s.capacity) :
    ∃ words, rotate position middle (s, w) = .done () ({ s with words }, w) ∧
      Word.Run.rotate position middle s.len s.words = some words := by
  obtain ⟨words, hrotate, -⟩ :=
    Word.Run.rotate_spec hposition hmiddle (hroom.trans_eq (Nat.mul_comm _ _))
  refine ⟨words, ?_, hrotate⟩
  obtain ⟨words₁, hfirst, hrest⟩ := Option.bind_eq_some_iff.mp hrotate
  obtain ⟨words₂, hsecond, hthird⟩ := Option.bind_eq_some_iff.mp hrest
  rw [rotate, Act.held_bind, Act.bind_of_done (changeWords_of_some hfirst),
    Act.bind_of_done (changeWords_of_some hsecond)]
  exact changeWords_of_some hthird

/-- The bits from `middle` on come to the position, and those between the two come last. -/
theorem bits_of_rotate {position middle : Nat} {words : Array Word} (hposition : position ≤ middle)
    (hmiddle : middle ≤ s.len) (hroom : s.len ≤ s.capacity)
    (h : Word.Run.rotate position middle s.len s.words = some words) :
    words.size = s.words.size ∧ (∀ i, s.len ≤ i → bitAt words i = bitAt s.words i) ∧
      ({ s with words } : BitSequence).bits
        = s.bits.take position ++ s.bits.drop middle ++ (s.bits.take middle).drop position := by
  obtain ⟨words', hrotate, hsize, hbits⟩ :=
    Word.Run.rotate_spec hposition hmiddle (hroom.trans_eq (Nat.mul_comm _ _))
  obtain rfl := Option.some.inj (h.symm.trans hrotate)
  refine ⟨hsize, fun i hi => (hbits i).trans (overlaid_of_not_mem (by omega)), ?_⟩
  -- Behind the first `middle` bits, the others are spliced in at the position.
  have hmoved : (s.bits.drop middle).length = s.len - middle := by rw [List.length_drop, length_bits]
  have hfront := bits_take hmiddle
  have hsplice : ({ s with words } : BitSequence).bits = ({ s with len := middle } : BitSequence).bits.take position
      ++ s.bits.drop middle ++ ({ s with len := middle } : BitSequence).bits.drop position := by
    apply bits_eq_splice hposition
    · dsimp only
      omega
    · exact fun i hi => (hbits i).trans (overlaid_of_not_mem (by omega))
    · intro i hi
      rw [List.getElem?_drop, getElem?_bits (by omega), hbits, overlaid_of_mem (by omega) (by omega),
        if_pos (by omega), Nat.add_sub_cancel_left]
    · intro i hi hlt
      dsimp only at hlt ⊢
      rw [hbits, overlaid_of_mem (by omega) (by omega), if_neg (by omega)]
      congr 1
      omega
  rw [hsplice, hfront, List.take_take, Nat.min_eq_left hposition]

/-- Three reversals bring the bits behind the first `len` ones to a position before. -/
theorem rotate_meets {t : BitSequence} {w' : World σ α} {position : Nat} {xs : List Bool}
    (ht : Sound m (t, w')) (hposition : position ≤ s.len) (hbits : t.bits = s.bits ++ xs) :
    (rotate position s.len (t, w')).Meets (.returns fun _ u => Sound m u ∧
      u.1.bits = s.bits.take position ++ xs ++ s.bits.drop position) := by
  have hlen : s.len ≤ t.len := (of_bits_append hbits).1 ▸ Nat.le_add_right _ _
  obtain ⟨words, hdone, hrotate⟩ := rotate_done hposition hlen ht.len_le
  obtain ⟨hsize, hstays, hrotated⟩ := bits_of_rotate hposition hlen ht.len_le hrotate
  rw [hdone]
  constructor
  · apply (ht.held.change hsize t.len).sound
    · exact ht.len_le.trans_eq (congrArg (· * Word.size) hsize.symm)
    · exact fun i hi => (hstays i hi).trans (ht.clear hi)
  · rw [hrotated, hbits, ← length_bits s, List.take_left, List.drop_left,
      List.take_append_of_le_length (hposition.trans_eq (length_bits s).symm)]

/-- What an iterator yields comes in at a position, or not at all; after a fault of the iterator, it
is behind the bits. -/
theorem insertFeed_meets (position : Nat) (feed : Feed Bool) (hs : Sound m (s, w)) :
    (insertFeed position feed (s, w)).Meets
      (follows m s (ListAct.insertFeed position feed)) := by
  simp only [insertFeed_eq_rotate, Act.bind_meets, Act.held_meets, Act.ofExcept_meets, Act.onRefusal_meets]
  refine ⟨fun _ hcheck => ?_, fun e he => ?_⟩
  · have hposition := le_of_checkPosition_eq_ok hcheck
    have hinsert : ListAct.insertFeed position feed s.bits = ListAct.feedInto feed
        (s.bits.take position ++ feed.members ++ s.bits.drop position)
        (s.bits ++ feed.members) := if_pos (by rwa [length_bits])
    apply (pushFeed_meets feed hs).imp
    · intro _ u hu
      obtain ⟨t, w'⟩ := u
      obtain ⟨ht, hraised, hbits⟩ := hu
      have hdone : ∀ (b : Unit) (u : BitSequence × World σ α), Sound m u ∧
          u.1.bits = s.bits.take position ++ feed.members ++ s.bits.drop position →
          (follows m s (ListAct.insertFeed position feed)).done b u :=
        fun _ _ hu => follows_done (hinsert.trans (ListAct.feedInto_of_none hraised _ _)) hu.1 hu.2
      exact (rotate_meets ht hposition hbits).of_returns hdone
    · intro e u hu
      obtain ⟨t, w'⟩ := u
      -- The members that were pushed before memory ran out are cut off again.
      obtain ⟨ht, hlack, n, hbits⟩ := hu
      simp only [Act.held_meets, Act.inWorld_meets]
      apply (World.note_meets _ ht.owns).of_returns
      intro _ w'' h''
      have ht'' : Sound m (t, w'') := ⟨ht.valid, h''⟩
      apply (truncate_meets s.len ht'').of_returns
      intro _ u hu
      apply follows_lack (hinsert ▸ ListAct.feedInto_accepted _ _ _) hu.1 hlack
      rw [hu.2, hbits, List.take_left' (length_bits s)]
    · intro f u hu
      obtain ⟨hu, ⟨message, hraised, rfl⟩, hbits⟩ := hu
      exact follows_faulted (hinsert.trans (ListAct.feedInto_of_some hraised _ _)) hu hbits
  · obtain ⟨hfar, rfl⟩ := checkPosition_eq_error he
    apply follows_refused _ hs
    rw [ListAct.insertFeed, if_neg (by rwa [length_bits]), length_bits]

/-- What an iterator yields comes behind the bits, or not at all; after a fault of the iterator, it
stays there. -/
theorem extendFeed_meets (feed : Feed Bool) (hs : Sound m (s, w)) :
    (extendFeed feed (s, w)).Meets (follows m s (ListAct.appendFeed feed)) := by
  have hinsert := insertFeed_meets s.len feed hs
  rw [follows, ← length_bits s, ListAct.insertFeed_length, length_bits] at hinsert
  exact hinsert

end Growable.BitSequence
