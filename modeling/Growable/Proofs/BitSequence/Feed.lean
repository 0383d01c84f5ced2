import Growable.Proofs.BitSequence.Demand
import Growable.Proofs.BitSequence.Window
import Growable.Proofs.Feed

/-!
# Bits that come one by one

The operations on bit sequences that consume an iterator put its bits in one by one behind the others, and
turn them into place in the end.  The number of bits that come decides what becomes of the operation
(`insertFeed_governed`, `assignFeed_governed`).
-/

namespace Growable.BitSequence

open Act

variable {σ α β : Type} {s : BitSequence} {w : World σ α} {m : Multiset (Asset α)}

/-- A sound bit sequence, the handle of which admits the room that it has. -/
structure Fitting (m : Multiset (Asset α)) (u : BitSequence × World σ α) : Prop where
  sound : Sound m u
  fits : u.1.capacity ≤ u.1.maxSize

/-- The maximum size is a matter of the handle. -/
theorem maxSize_of_handle {s t : BitSequence} (h : s.handle = t.handle) : s.maxSize = t.maxSize := by
  rw [maxSize, maxSize, maxWords, maxWords, h]

/-- Whatever keeps the handle, and is within what it admits, keeps the room within it. -/
theorem Fitting.of_under {t : BitSequence} {w' : World σ α} {Q : Event α → Prop} (ht : Sound m (t, w'))
    (h : Under s.handle (·.capacity ≤ s.maxWords) Q w (t, w')) :
    Fitting m (t, w') ∧ t.maxSize = s.maxSize := by
  have hmax := maxSize_of_handle h.1.1
  exact ⟨⟨ht, (Nat.mul_le_mul_right Word.size h.1.2).trans_eq hmax.symm⟩, hmax⟩

/-- A bit that is pushed makes the bit sequence longer by one. -/
theorem Fitting.push (hs : Fitting m (s, w)) (value : Bool) : (push value (s, w)).Meets
    ⟨fun _ u => (Fitting m u ∧ u.1.len = s.len + 1 ∧ u.1.maxSize = s.maxSize) ∧
      w.Evolves (fun _ => True) u.2, fun _ _ => True, fun _ _ => True⟩ := by
  have hfits : s.words.size ≤ s.maxWords := (Nat.mul_le_mul_right_iff (by decide)).mp hs.fits
  have hkept := keeps_push (P := (·.capacity ≤ s.maxWords)) (Q := fun _ => True)
    (fun _ _ => trivial) s.handle.maxBytes_le (fun _ => id) value (s, w) ⟨⟨rfl, hfits⟩, .refl w⟩
  apply ((push_meets value hs.sound).and hkept).imp
  · rintro _ ⟨t, w'⟩ ⟨⟨ht, hbits⟩, hu⟩
    obtain ⟨hfitting, hmax⟩ := Fitting.of_under ht hu
    have happended : s.bits ++ [value] = t.bits := congrArg Outcome.state hbits
    have hlen : t.len = s.len + 1 := by
      rw [← length_bits t, ← happended, List.length_append, length_bits, List.length_singleton]
    exact ⟨⟨hfitting, hlen, hmax⟩, hu.2⟩
  · exact fun _ _ _ => trivial
  · exact fun _ _ _ => trivial

/-- Bits that come from an iterator are put in one by one. -/
theorem appends_push (m : Multiset (Asset α)) :
    storage.Appends len (Fitting m : BitSequence × World σ α → Prop) (fun _ => none) push where
  len_le _ hs := hs.sound.valid.len_le.trans hs.fits
  yielded _ _ hs := ⟨⟨hs.sound.valid, World.record_meets rfl rfl hs.sound.owns⟩, hs.fits⟩
  answered value _ _ hs := push_answered hs.sound.valid.len_le hs.fits value
  lengthens value _ _ hs := hs.push value

/-- Pushing what an iterator yields is putting it in one by one. -/
theorem pushFeed_eq_each (feed : Feed Bool) :
    (pushFeed feed : BitAct σ α Unit) = feed.each push := by
  induction feed with
  | finish => rfl
  | raise message => rfl
  | yield value rest ih =>
      rw [pushFeed, ih]
      rfl

/-- Bits that are taken away again leave the words where they are. -/
theorem settles_interrupt (len : Nat) : Settles storage (do
    let s ← held
    inWorld (World.note (.interruptedBits (s.len - len)))
    truncate len : BitAct σ α Unit) := by
  apply settles_of_keeps
  · exact firm_held.bind fun s => (firm_record _).inWorld.bind fun _ => firm_truncate len
  · intro h P w₀
    apply keeps_held
    intro s _
    apply (keeps_inWorld (World.keeps_note (Event.chore_of_unasked fun _ => id) _)).bind
    exact fun _ => keeps_truncate len

/-- Three reversals turn the bits into place. -/
theorem settles_turn (position middle : Nat) : Settles storage (do
    let s ← held
    changeWords (Word.Run.reverse position middle)
    changeWords (Word.Run.reverse middle s.len)
    changeWords (Word.Run.reverse position s.len) : BitAct σ α Unit) := by
  apply settles_of_keeps
  · exact firm_held.bind fun _ => (firm_changeWords _).bind fun _ => (firm_changeWords _).bind
      fun _ => firm_changeWords _
  · intro h P w₀
    apply keeps_held
    exact fun _ _ => (keeps_reverse _ _).bind fun _ => (keeps_reverse _ _).bind fun _ => keeps_reverse _ _

/-- The number of bits that come decides what becomes of inserting them. -/
theorem insertFeed_governed (hs : Fitting m (s, w)) (position : Nat) (feed : Feed Bool) :
    Demand.Governs storage ⟨checkPosition position s.len, s.len + feed.members.length, true⟩ none s w
      (insertFeed position feed (s, w)) := by
  rw [insertFeed, held_bind]
  apply Demand.Governs.checked
  intro _
  apply Demand.Governs.bind _ fun _ => settles_turn position s.len
  apply Demand.Governs.onRefusal _ (settles_interrupt s.len)
  rw [pushFeed_eq_each]
  exact (appends_push m).governs feed hs

/-- What an iterator yields takes the place of the old bits. -/
theorem assignFeed_governed (hs : Fitting m (s, w)) (feed : Feed Bool) :
    Demand.Governs storage ⟨.ok (), feed.members.length, true⟩ none s w (assignFeed feed (s, w)) := by
  have hfits : s.words.size ≤ s.maxWords := (Nat.mul_le_mul_right_iff (by decide)).mp hs.fits
  have hkept := keeps_truncate (P := (·.capacity ≤ s.maxWords)) (Q := fun _ => True) 0 (s, w)
    ⟨⟨rfl, hfits⟩, .refl w⟩
  apply Demand.Governs.after (settles_truncate 0 s w)
  apply ((clear_meets hs.sound).and hkept).imp
  · rintro _ ⟨t, w'⟩ ⟨⟨ht, hnone⟩, hu⟩
    obtain ⟨hfitting, hmax⟩ := Fitting.of_under ht hu
    have hlen : t.len = 0 := by rw [← length_bits t, hnone, List.length_nil]
    have hfed := (appends_push m).governs feed hfitting
    rw [hlen, Nat.zero_add] at hfed
    rw [pushFeed_eq_each]
    exact ⟨hmax, hu.2, hfed⟩
  · exact fun _ _ _ => trivial
  · exact fun _ _ _ => trivial

end Growable.BitSequence
