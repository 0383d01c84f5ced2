import Growable.Proofs.BitSequence.Assignment
import Growable.Proofs.BitSequence.Evolution
import Growable.Proofs.Refusal

/-!
# Refused operations on bit sequences

New words are all that an operation can be refused, and it takes them before it changes a bit.  So a bit
sequence stays as it was when an operation on it is refused, in every respect: its bits, its length, its
words and its handle.

Only what consumes an iterator takes new words again and again.  An insertion takes away again what was
inserted until then, and keeps the words (`insertFeed_refused`); an assignment leaves what was assigned
until then (`assignFeed_refused`).
-/

namespace Growable.BitSequence

open Act

variable {σ α β : Type} {s : BitSequence} {w : World σ α} {m : Multiset (Asset α)}

/-! ## Operations that are never refused -/

/-- A change of the words is never refused. -/
theorem firm_changeWords (change : Array Word → Option (Array Word)) :
    Firm (changeWords change : BitAct σ α Unit) := by
  apply firm_held.bind
  intro s
  apply (firm_ofOption _ _).bind
  exact fun _ => firm_hold _

/-- A change of a bit is never refused. -/
theorem firm_changeBit (index : Nat) (change : BitChange) :
    Firm (changeBit index change : BitAct σ α (Option Bool)) := by
  apply firm_held.bind
  intro s
  apply (firm_ofOption _ _).bind
  intro old
  apply (firm_hold _).bind
  exact fun _ => firm_pure _

theorem firm_changeBits (index : Nat) (changes : List BitChange) :
    Firm (changes.mapM (changeBit index) : BitAct σ α (List (Option Bool))) := by
  induction changes with
  | nil => exact firm_pure _
  | cons change rest ih =>
      rw [List.mapM_cons]
      apply (firm_changeBit index change).bind
      intro _
      exact ih.bind fun _ => firm_pure _

/-- A length is declared without refusal. -/
theorem firm_setLen (len : Nat) : Firm (setLen len : BitAct σ α Unit) := by
  apply firm_held.bind
  exact fun _ => firm_hold _

/-- A bit is looked at without refusal. -/
theorem firm_bit (index : Nat) : Firm (bit index : BitAct σ α Bool) := by
  apply firm_held.bind
  exact fun _ => firm_ofOption _ _

/-- Bits are written without refusal where there is room. -/
theorem firm_write (index : Nat) (values : List Bool) : Firm (write index values : BitAct σ α Unit) := by
  induction values generalizing index with
  | nil => exact firm_pure _
  | cons value rest ih => exact (firm_changeBit index _).bind fun _ => ih (index + 1)

/-- Cutting off is never refused. -/
theorem firm_truncate (n : Nat) : Firm (truncate n : BitAct σ α Unit) := by
  apply firm_held.bind
  intro s
  apply (firm_pure _).ite
  exact (firm_changeWords _).bind fun _ => firm_setLen _

/-- Taking the last bit is never refused, also when there is none. -/
theorem firm_pop : Firm (pop : BitAct σ α (Option Bool)) := by
  apply firm_held.bind
  intro s
  apply (firm_pure _).ite
  exact (firm_setLen _).bind fun _ => firm_changeBit _ _

/-- Closing a window is never refused. -/
theorem firm_closeWindow (start stop : Nat) : Firm (closeWindow start stop : BitAct σ α Unit) := by
  apply firm_held.bind
  intro s
  apply (firm_pure _).ite
  apply (firm_changeWords _).bind
  intro _
  exact (firm_changeWords _).bind fun _ => firm_setLen _

/-- Words that are there are installed without refusal. -/
theorem firm_install (block : Option Block) (words : Array Word) (len : Nat) :
    Firm (install block words len : BitAct σ α Unit) := by
  apply firm_held.bind
  intro s
  apply (firm_hold _).bind
  exact fun _ => (Region.firm_release _ _ _).inWorld

/-! ## Operations that are refused before they change anything -/

/-- Where new words are declined, the old ones stay. -/
theorem atomic_reallocate (count : Nat) : Atomic (reallocate count : BitAct σ α Unit) := by
  apply atomic_held_bind
  intro s
  apply atomic_inWorld_bind
  exact fun r => (firm_install r.1 r.2 s.len).atomic

/-- Where room is declined, nothing is changed. -/
theorem atomic_reserve (capacity : Nat) : Atomic (reserve capacity : BitAct σ α Unit) := by
  apply atomic_held_bind
  intro s
  apply (firm_pure _).atomic.ite
  apply atomic_ofExcept_bind
  exact fun _ => atomic_reallocate _

/-- Where more room is declined, nothing is changed. -/
theorem atomic_reserveMore (additional : Nat) : Atomic (reserveMore additional : BitAct σ α Unit) := by
  apply atomic_held_bind
  intro s
  apply atomic_ofExcept_bind
  intro required
  apply (firm_pure _).atomic.ite
  apply atomic_ofExcept_bind
  exact fun _ => atomic_reallocate _

/-- Where a smaller block is declined, the larger one stays. -/
theorem atomic_shrink : Atomic (shrink : BitAct σ α Unit) := by
  apply atomic_held_bind
  intro s
  apply (firm_pure _).atomic.ite
  apply Atomic.ite _ (atomic_reallocate _)
  exact ((firm_hold _).bind fun _ => (Region.firm_release _ _ _).inWorld).atomic

/-- A refused push changes nothing. -/
theorem atomic_push (value : Bool) : Atomic (push value : BitAct σ α Unit) := by
  apply atomic_held_bind
  intro s
  have hstore : Firm (do
      let _ ← changeBit s.len (.replace value)
      setLen (s.len + 1) : BitAct σ α Unit) :=
    (firm_changeBit _ _).bind fun _ => firm_setLen _
  exact ((atomic_reserveMore 1).bind_firm fun _ => hstore).ite hstore.atomic

/-- The room is there before the first bit is written. -/
theorem atomic_resize (n : Nat) (value : Bool) : Atomic (resize n value : BitAct σ α Unit) := by
  apply atomic_held_bind
  intro s
  apply (firm_truncate n).atomic.ite
  apply (atomic_reserve n).bind_firm
  exact fun _ => (firm_changeWords _).bind fun _ => firm_setLen n

/-- The bounds and the room are settled before anything is moved. -/
theorem atomic_openWindow (position count : Nat) :
    Atomic (openWindow position count : BitAct σ α Unit) := by
  apply atomic_held_bind
  intro s
  apply atomic_ofExcept_bind
  intro _
  apply (firm_pure _).atomic.ite
  apply (atomic_reserveMore count).bind_firm
  exact fun _ => (firm_changeWords _).bind fun _ => firm_setLen _

/-- A refused insertion of copies changes nothing. -/
theorem atomic_insertCopies (position count : Nat) (value : Bool) :
    Atomic (insertCopies position count value : BitAct σ α Unit) :=
  (atomic_openWindow position count).bind_firm fun _ => firm_changeWords _

/-- A refused insertion of bits changes nothing. -/
theorem atomic_insertAll (position : Nat) (values : List Bool) :
    Atomic (insertAll position values : BitAct σ α Unit) :=
  (atomic_openWindow position values.length).bind_firm fun _ => firm_write position values

/-- A refused extension changes nothing. -/
theorem atomic_extendAll (values : List Bool) : Atomic (extendAll values : BitAct σ α Unit) := by
  apply atomic_held_bind
  exact fun s => atomic_insertAll s.len values

/-- The room is there before the first bit is overwritten. -/
theorem atomic_assignCopies (count : Nat) (value : Bool) :
    Atomic (assignCopies count value : BitAct σ α Unit) := by
  apply (atomic_reserve count).bind_firm
  intro _
  apply (firm_changeWords _).bind
  exact fun _ => (firm_truncate count).bind fun _ => firm_setLen count

/-- The room is there before the first bit is overwritten. -/
theorem atomic_assignAll (values : List Bool) : Atomic (assignAll values : BitAct σ α Unit) := by
  apply (atomic_reserve values.length).bind_firm
  intro _
  apply (firm_write 0 values).bind
  exact fun _ => (firm_truncate _).bind fun _ => firm_setLen _

/-- An index that is refused is refused before anything else. -/
theorem atomic_get (index : Nat) : Atomic (get index : BitAct σ α Bool) := by
  apply atomic_held_bind
  intro s
  apply atomic_ofExcept_bind
  exact fun _ => (firm_bit index).atomic

/-- An index that is refused is refused before a bit is set. -/
theorem atomic_set (index : Nat) (value : Bool) :
    Atomic (set index value : BitAct σ α (Option Bool)) := by
  apply atomic_held_bind
  intro s
  apply atomic_ofExcept_bind
  exact fun _ => (firm_changeBit index _).atomic

/-- An index that is refused is refused before a bit is changed. -/
theorem atomic_change (index : Nat) (changes : List BitChange) :
    Atomic (change index changes : BitAct σ α (List (Option Bool))) := by
  apply atomic_held_bind
  intro s
  apply atomic_ofExcept_bind
  exact fun _ => (firm_changeBits index changes).atomic

/-- An index that is refused is refused before anything is moved. -/
theorem atomic_erase (index : Nat) : Atomic (erase index : BitAct σ α Bool) := by
  apply atomic_held_bind
  intro s
  apply atomic_ofExcept_bind
  intro _
  apply Firm.atomic
  apply (firm_bit index).bind
  intro _
  exact (firm_closeWindow _ _).bind fun _ => firm_pure _

/-- Bounds that are refused are refused before anything is moved. -/
theorem atomic_eraseSpan (span : Span) : Atomic (eraseSpan span : BitAct σ α Unit) := by
  apply atomic_held_bind
  intro s
  apply atomic_ofExcept_bind
  exact fun _ => (firm_closeWindow _ _).atomic

/-- A refused copy leaves the target as it was, whichever way it was to be made. -/
theorem atomic_copyFrom (other : BitSequence) : Atomic (copyFrom other : BitAct σ α Unit) := by
  apply atomic_held_bind
  intro s
  apply Atomic.ite
  · apply atomic_inWorld_bind
    intro copied
    apply Firm.atomic
    exact (firm_hold copied).bind fun _ => (Region.firm_release _ _ _).inWorld
  · apply (atomic_reserve other.len).bind_firm
    intro _
    apply (firm_changeWords _).bind
    intro _
    apply (firm_truncate _).bind
    intro _
    apply (firm_setLen _).bind
    intro _
    exact (firm_held.bind fun _ => firm_hold _).ite (firm_pure _)

/-- A refused move leaves both sequences as they were. -/
theorem atomic_moveFrom :
    Atomic (moveFrom : Act ((BitSequence × BitSequence) × World σ α) Unit) := by
  apply atomic_held_bind
  intro pair
  apply Atomic.ite
  · apply Firm.atomic
    exact (firm_hold _).bind fun _ => (firm_install _ _ _).onFirst
  · apply atomic_inWorld_bind
    intro r
    apply Firm.atomic
    exact (firm_install _ _ _).onFirst.bind fun _ => (firm_truncate 0).onSecond

/-! ## Iterators -/

/-- The bit sequence has at least `n` words, and no iterator was asked since `w₀`. -/
def Roomy (h : Handle) (n : Nat) (w₀ : World σ α) : BitSequence × World σ α → Prop :=
  Under h (n ≤ ·.capacity) (fun e => e.isYield = false) w₀

/-- Growing does not give room away. -/
theorem keeps_room_reserveMore {h : Handle} {n : Nat} (additional : Nat) :
    Keeps (Roomy h n w) (reserveMore additional : BitAct σ α Unit) := by
  apply keeps_held
  intro s hs
  apply keeps_ofExcept_bind
  intro required _
  apply Keeps.ite (fun _ => keeps_pure _)
  intro hmore
  apply keeps_ofExcept_bind
  intro capacity hgrow
  have hlt : s.words.size * Word.size < Word.wordsFor capacity * Word.size := by
    have hbounds := Capacity.grow_bounds hgrow
    have hwords := Word.le_wordsFor capacity
    unfold BitSequence.capacity at hmore
    omega
  have hroom : n ≤ Word.wordsFor capacity :=
    Nat.le_trans hs.2 (Nat.le_of_lt (Nat.lt_of_mul_lt_mul_right hlt))
  exact keeps_reallocate Event.isYield_of_upkeep (Nat.le_refl _) fun r hr => hroom.trans hr.ge

/-- There are never fewer words after a push than before, and no iterator is asked. -/
theorem keeps_room_push {h : Handle} {n : Nat} (value : Bool) :
    Keeps (Roomy h n w) (push value : BitAct σ α Unit) := by
  have hstore : ∀ index, Keeps (Roomy h n w) (do
      let _ ← changeBit index (.replace value)
      setLen (index + 1) : BitAct σ α Unit) :=
    fun index => (keeps_changeBit index _).bind fun _ => keeps_setLen _
  apply keeps_held
  intro s _
  apply Keeps.ite
  · exact fun _ => (keeps_room_reserveMore 1).bind fun _ => hstore s.len
  · exact fun _ => hstore s.len

/-- What is left when a member of an iterator was refused, while they were being put at the end: the members
before that one are there. -/
structure Interrupted (m : Multiset (Asset α)) (s : BitSequence) (w : World σ α) (feed : Feed Bool)
    (u : BitSequence × World σ α) : Prop where
  sound : Sound m u
  handle : u.1.handle = s.handle
  room : s.words.size ≤ u.1.words.size
  bits : ∃ n, feed.Interrupted n w u.2 ∧ u.1.bits = s.bits ++ feed.members.take n

/-- When a bit of an iterator is refused, the ones before it are still behind the others. -/
theorem pushFeed_refused (feed : Feed Bool) (hs : Sound m (s, w)) :
    (pushFeed feed (s, w)).Meets (.refusing fun _ u => Interrupted m s w feed u) := by
  induction feed generalizing s w with
  | finish => trivial
  | raise message => trivial
  | yield value rest ih =>
      simp only [pushFeed, bind_meets, inWorld_meets]
      apply (World.record_yielded_meets hs.owns).of_returns
      intro _ w₁ hw₁
      have hs₁ : Sound m (s, w₁) := ⟨hs.valid, hw₁.1⟩
      have hkept := keeps_room_push value (s, w₁) ⟨⟨rfl, Nat.le_refl s.words.size⟩, .refl w₁⟩
      apply (((push_meets value hs₁).and (atomic_push value (s, w₁))).and hkept).imp
      · intro _ u hu
        obtain ⟨t, w₂⟩ := u
        obtain ⟨⟨⟨ht, hpush⟩, _⟩, ⟨hhandle, hroom⟩, hquiet⟩ := hu
        injection hpush with _ hbits
        apply (ih ht).refusing
        intro e u hu
        obtain ⟨n, hn, hbits'⟩ := hu.bits
        have hyields : w₂.yields = w.yields + 1 := hquiet.yields_eq.trans hw₁.2
        refine ⟨hu.sound, hu.handle.trans hhandle, Nat.le_trans hroom hu.room, n + 1,
          hn.yield value hyields, ?_⟩
        rw [hbits', ← hbits, List.append_assoc]
        rfl
      · intro e u hu
        obtain ⟨⟨⟨ht, _⟩, hsame⟩, _, hquiet⟩ := hu
        have hyields : u.2.yields = w.yields + 1 := hquiet.yields_eq.trans hw₁.2
        exact ⟨ht, hsame ▸ rfl, hsame ▸ Nat.le_refl _, 0, Feed.interrupted_zero value rest hyields,
          hsame ▸ (List.append_nil _).symm⟩
      · exact fun _ _ _ => trivial

/-- What was put at the end is taken away again, and the words stay. -/
theorem truncate_restores {t : BitSequence} {w' : World σ α} {xs : List Bool} (ht : Sound m (t, w'))
    (hbits : t.bits = s.bits ++ xs) : (truncate s.len (t, w')).Meets (.returns fun _ u =>
      u.1.bits = s.bits ∧ u.1.handle = t.handle ∧ u.1.region = t.region) := by
  have hkept := keeps_truncate (P := (· = t.region)) s.len (t, w')
    ⟨⟨rfl, rfl⟩, (.refl w' : w'.Evolves (fun _ => True) w')⟩
  apply ((truncate_meets s.len ht).and hkept).imp
  · intro _ u hu
    obtain ⟨⟨_, hcut⟩, hkept, _⟩ := hu
    exact ⟨by rw [hcut, hbits, List.take_left' (length_bits s)], hkept⟩
  · exact fun _ _ hu => hu.1.elim
  · exact fun _ _ hu => hu.1.elim

/-- What was inserted until a member was refused is taken away again. -/
theorem insertFeed_refused (position : Nat) (feed : Feed Bool) (hs : Sound m (s, w)) :
    (insertFeed position feed (s, w)).Meets (.refusing fun _ u =>
      u.1.bits = s.bits ∧ u.1.handle = s.handle ∧ s.words.size ≤ u.1.words.size) := by
  apply bind_meets.mpr
  apply held_meets.mpr
  apply bind_meets.mpr
  apply ofExcept_meets.mpr
  refine ⟨fun _ _ => ?_, fun _ _ => ⟨rfl, rfl, Nat.le_refl _⟩⟩
  apply onRefusal_bind_refusing (pushFeed_refused feed hs)
  · rintro e ⟨t, w'⟩ hu
    obtain ⟨n, _, hbits⟩ := hu.bits
    simp only [bind_meets, held_meets, inWorld_meets]
    apply (World.note_meets _ hu.sound.owns).of_returns
    intro _ w'' hw''
    have ht : Sound m (t, w'') := ⟨hu.sound.valid, hw''⟩
    apply (truncate_restores ht hbits).of_returns
    exact fun _ _ hv => ⟨hv.1, hv.2.1.trans hu.handle,
      hu.room.trans (congrArg Region.capacity hv.2.2).ge⟩
  · intro _
    apply firm_held.bind
    intro t
    apply (firm_changeWords _).bind
    intro _
    exact (firm_changeWords _).bind fun _ => firm_changeWords _

/-- What was assigned until a member was refused stays. -/
theorem assignFeed_refused (feed : Feed Bool) (hs : Sound m (s, w)) :
    (assignFeed feed (s, w)).Meets (.refusing fun _ u => u.1.handle = s.handle ∧
      ∃ n, feed.Interrupted n w u.2 ∧ u.1.bits = feed.members.take n) := by
  have hkept := keeps_truncate (P := fun _ => True) 0 (s, w)
    ⟨⟨rfl, trivial⟩, (.refl w : w.Evolves (fun e => e.isYield = false) w)⟩
  apply bind_meets.mpr
  apply ((clear_meets hs).and hkept).imp
  · rintro _ ⟨t, w'⟩ hu
    obtain ⟨⟨ht, hnone⟩, ⟨hhandle, _⟩, hquiet⟩ := hu
    apply (pushFeed_refused feed ht).refusing
    intro e u hu
    obtain ⟨n, hn, hbits⟩ := hu.bits
    refine ⟨hu.handle.trans hhandle, n, ⟨hn.1, hn.2.trans (by rw [hquiet.yields_eq])⟩, ?_⟩
    rw [hbits, hnone, List.nil_append]
  · exact fun _ _ hu => hu.1.elim
  · exact fun _ _ _ => trivial

end Growable.BitSequence
