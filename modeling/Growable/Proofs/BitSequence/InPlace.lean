import Growable.Proofs.BitSequence.Evolution
import Growable.Proofs.BitSequence.Order
import Growable.Proofs.BitSequence.Window

/-!
# Changes of bits in place

What changes bits where they are has nothing to do with the world at all: neither with the allocators, nor
with what happened, nor with the element code.  The words stay where they are, too (`InPlace`).

* `eraseSpan_done` — the bits of a span are taken away in place;
* `change_done` — a bit is changed again and again in place, and no other bit of the words is;
* `change_still` — if it is what it was, in the end, nothing was changed.
-/

namespace Growable.BitSequence

open Act
open Word.Run (bitAt)

variable {σ α β : Type} {s : BitSequence} {w : World σ α} {m : Multiset (Asset α)}

/-- Of the bit sequence `s` in the world `w`, only bits and the length were changed. -/
structure InPlace (s : BitSequence) (w : World σ α) (u : BitSequence × World σ α) : Prop where
  handle_eq : u.1.handle = s.handle
  region_eq : u.1.region = s.region
  world_eq : u.2 = w

/-! ## The world -/

/-- Words are changed without the world. -/
theorem keeps_world_changeWords (change : Array Word → Option (Array Word)) :
    Keeps (·.2 = w) (changeWords change : BitAct σ α Unit) :=
  keeps_held_bind fun _ _ _ => (keeps_ofOption _ _).bind fun _ => Act.keeps_hold fun _ _ => id

/-- A length is declared without the world. -/
theorem keeps_world_setLen (len : Nat) : Keeps (·.2 = w) (setLen len : BitAct σ α Unit) :=
  keeps_held_bind fun _ _ _ => Act.keeps_hold fun _ _ => id

/-- A bit is changed without the world. -/
theorem keeps_world_changeBit (index : Nat) (change : BitChange) :
    Keeps (·.2 = w) (changeBit index change : BitAct σ α (Option Bool)) :=
  keeps_held_bind fun _ _ _ => (keeps_ofOption _ _).bind fun _ =>
    (Act.keeps_hold fun _ _ => id).bind fun _ => keeps_pure _

theorem keeps_world_changeBits (index : Nat) (changes : List BitChange) :
    Keeps (·.2 = w) (changes.mapM (changeBit index) : BitAct σ α (List (Option Bool))) := by
  induction changes with
  | nil => exact keeps_pure _
  | cons change rest ih =>
      rw [List.mapM_cons]
      exact (keeps_world_changeBit index change).bind fun _ => ih.bind fun _ => keeps_pure _

/-- A window is closed without the world. -/
theorem keeps_world_closeWindow (start stop : Nat) :
    Keeps (·.2 = w) (closeWindow start stop : BitAct σ α Unit) := by
  apply keeps_held_bind
  intro s _ _
  apply Keeps.ite fun _ => keeps_pure _
  intro _
  exact (keeps_world_changeWords _).bind fun _ => (keeps_world_changeWords _).bind fun _ =>
    keeps_world_setLen _

/-- What works under every handle and region, and leaves the world alone, works in place. -/
theorem InPlace.of_keeps {act : BitAct σ α β}
    (hunder : Keeps (Under s.handle (· = s.region) (fun _ => True) w) act) (hworld : Keeps (·.2 = w) act) :
    (act (s, w)).Meets (.always (InPlace s w)) :=
  (hunder.and hworld (s, w) ⟨⟨⟨rfl, rfl⟩, .refl w⟩, rfl⟩).always_imp
    fun _ hu => ⟨hu.1.1.1, hu.1.1.2, hu.2⟩

/-- What cannot fail is done, and in place. -/
theorem InPlace.done {act : BitAct σ α β} {P : β → BitSequence × World σ α → Prop}
    (hreturns : (act (s, w)).Meets (.returns P)) (hplace : (act (s, w)).Meets (.always (InPlace s w))) :
    ∃ b u, act (s, w) = .done b u ∧ InPlace s w u ∧ P b u := by
  obtain ⟨b, u, hdone, hu⟩ := hreturns.exists_done
  rw [hdone] at hplace
  exact ⟨b, u, hdone, hplace, hu⟩

/-! ## Bits that are taken away -/

/-- The bits of a span that is accepted are taken away in place. -/
theorem eraseSpan_done {span : Span} {start stop : Nat} (hs : Sound m (s, w))
    (hspan : span.within s.len = .ok (start, stop)) :
    ∃ u, eraseSpan span (s, w) = .done () u ∧ InPlace s w u ∧
      u.1.bits = s.bits.take start ++ s.bits.drop stop := by
  obtain ⟨hstart, hstop⟩ := Span.bounds_of_within hspan
  have hclosed : eraseSpan span (s, w) = closeWindow start stop (s, w) := by
    rw [eraseSpan, held_bind, hspan]
    rfl
  obtain ⟨_, u, hdone, hplace, _, hbits⟩ := InPlace.done (closeWindow_meets hs hstart hstop)
    (InPlace.of_keeps (keeps_closeWindow start stop) (keeps_world_closeWindow start stop))
  exact ⟨u, hclosed.trans hdone, hplace, hbits⟩

/-! ## A bit that is changed -/

/-- A bit within the length is changed again and again in place, and no other bit of the words is. -/
theorem change_done {index : Nat} {value : Bool} (hs : Sound m (s, w)) (hvalue : s.bits[index]? = some value)
    (changes : List BitChange) :
    let last := (BitChange.onBits changes value).2
    ∃ u, change index changes (s, w) = .done (BitChange.onBits changes value).1 u ∧ InPlace s w u ∧
      u.1.bits = s.bits.set index last ∧
      ∀ j, bitAt u.1.words j = if j = index then last else bitAt s.words j := by
  intro last
  have hindex : index < s.len := by
    rw [← length_bits s]
    exact (List.getElem?_eq_some_iff.mp hvalue).1
  have hold : bitAt s.words index = value := Option.some.inj ((getElem?_bits hindex).symm.trans hvalue)
  have hpicked : change index changes (s, w) = changes.mapM (changeBit index) (s, w) := by
    rw [change, held_bind, checkIndex, if_pos hindex]
    rfl
  obtain ⟨_, u, hdone, hplace, rfl, hloose⟩ :=
    InPlace.done (changeBits_meets changes hs.loose (hindex.trans_le hs.len_le))
      (InPlace.of_keeps (keeps_changeBits index changes) (keeps_world_changeBits index changes))
  rw [hold] at hdone hloose
  exact ⟨u, hpicked.trans hdone, hplace, hloose.bits_eq_set, congrFun hloose.bits_eq⟩

/-- Where the length and all bits are what they were, everything is. -/
theorem InPlace.eq_self {u : BitSequence × World σ α} (h : InPlace s w u) (hlen : u.1.len = s.len)
    (hbits : ∀ j, bitAt u.1.words j = bitAt s.words j) : u = (s, w) := by
  obtain ⟨⟨block, words, len, handle⟩, w'⟩ := u
  obtain ⟨hhandle, hregion, hworld⟩ := h
  have hwords : words = s.words := Word.Run.ext_bitAt (congrArg Region.capacity hregion) hbits
  have hblock : block = s.block := congrArg Region.block hregion
  rw [show w' = w from hworld, hwords, hblock, show handle = s.handle from hhandle,
    show len = s.len from hlen]

/-- Changes that make a bit what it was, in the end, change nothing. -/
theorem change_still {index : Nat} {value : Bool} (hs : Sound m (s, w)) (hvalue : s.bits[index]? = some value)
    {changes : List BitChange} (hlast : (BitChange.onBits changes value).2 = value) :
    change index changes (s, w) = .done (BitChange.onBits changes value).1 (s, w) := by
  obtain ⟨u, hdone, hplace, hset, hbits⟩ := change_done hs hvalue changes
  have hlen : u.1.len = s.len := by rw [← length_bits, hset, List.length_set, length_bits]
  have hsame : u = (s, w) := hplace.eq_self hlen fun j => by
    -- At the index, the words held the bit of the list; elsewhere, nothing was written.
    rw [hbits, hlast, bitAt_words hs.valid]
    by_cases hj : j = index
    · rw [if_pos hj, hj, hvalue, Option.getD_some]
    · exact if_neg hj
  rw [hdone, hsame]

end Growable.BitSequence
