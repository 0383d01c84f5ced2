import Growable.BitSequence.Assignment
import Growable.Proofs.BitSequence.Storage
import Growable.Proofs.Evolution
import Growable.Proofs.Items
import Growable.Proofs.Word.Reversal

/-!
# How the world evolves around a bit sequence

While a bit sequence is worked on, its handle stays, and apart from what an iterator is asked, there is
nothing but upkeep: bits have no code of their own.  `BitSequence.Under h P Q w₀` says that the sequence has
the handle `h` and a region that satisfies `P`, in a world that evolved from `w₀` by events that satisfy
`Q`.

What works on bits in place keeps the region and leaves no event at all.  Every operation that grows a bit
sequence asks for no more than its handle admits.  Shrinking, copying and moving ask for as many words as
are in use already, whatever the handle admits (`shrink_evolves`, `yields_copy`, `moveFrom_evolves`).
-/

namespace Growable.BitSequence

open Act

variable {σ α β : Type} {h : Handle} {P : Region → Prop} {Q : Event α → Prop} {w₀ : World σ α}
  {most : Nat}

/-- The bit sequence has the handle `h` and a region that satisfies `P`, and its world evolved from `w₀` by
events that satisfy `Q`. -/
def Under (h : Handle) (P : Region → Prop) (Q : Event α → Prop) (w₀ : World σ α)
    (u : BitSequence × World σ α) : Prop :=
  (u.1.handle = h ∧ P u.1.region) ∧ w₀.Evolves Q u.2

/-- The words for a number of bits that the handle admits take no more bytes than may be asked of its
allocator. -/
theorem bytes_le (hmax : h.maxBytes ≤ most) {bits : Nat} (hbits : bits ≤ (empty h).maxSize) :
    Word.shape.bytes * Word.wordsFor bits ≤ most :=
  Handle.mul_le hmax (Nat.le_trans (Word.wordsFor_le.mpr hbits) (Nat.min_le_left _ _))

/-- No more words are copied than the bits take. -/
theorem size_asWords_le (s : BitSequence) : s.asWords.size ≤ Word.wordsFor s.len := by
  simp [asWords]

/-- Other words, as many as before, are the same region. -/
theorem region_of_size {s : BitSequence} {words : Array Word} (hsize : words.size = s.words.size) :
    ({ s with words } : BitSequence).region = s.region := by
  rw [region, region, hsize]

/-- What is done with a sequence may rely on its handle and its region. -/
theorem keeps_held {next : BitSequence → BitAct σ α β}
    (hnext : ∀ s, s.handle = h ∧ P s.region → Keeps (Under h P Q w₀) (next s)) :
    Keeps (Under h P Q w₀) (held >>= next) :=
  keeps_held_bind fun s _ hs => hnext s hs.1

/-- A sequence with the same handle and an admissible region may take the place of the one at hand. -/
theorem keeps_hold {s : BitSequence} (hs : s.handle = h ∧ P s.region) :
    Keeps (Under h P Q w₀) (hold s) :=
  Act.keeps_hold fun _ _ hu => ⟨hs, hu.2⟩

/-- The sequence stays while something happens in the world. -/
theorem keeps_inWorld {act : Act (World σ α) β} (hact : Keeps (w₀.Evolves Q) act) :
    Keeps (Under h P Q w₀) (inWorld act) :=
  hact.beside (L := fun s : BitSequence => s.handle = h ∧ P s.region)

/-- So it does while something happens in the world that comes to a value. -/
theorem yields_inWorld {V : β → Prop} {act : Act (World σ α) β} (hact : Yields (w₀.Evolves Q) V act) :
    Yields (Under h P Q w₀) V (inWorld act) :=
  hact.beside (L := fun s : BitSequence => s.handle = h ∧ P s.region)

/-! ## Bits in place -/

/-- As long as it leaves as many words, a change of the words keeps the region. -/
theorem keeps_changeWords {change : Array Word → Option (Array Word)}
    (hsize : ∀ words words', change words = some words' → words'.size = words.size) :
    Keeps (Under h P Q w₀) (changeWords change : BitAct σ α Unit) := by
  intro u hu
  simp only [changeWords, bind_meets, ofOption_meets]
  refine ⟨fun words hwords => ⟨⟨hu.1.1, ?_⟩, hu.2⟩, fun _ => hu⟩
  exact (region_of_size (hsize _ _ hwords)).symm ▸ hu.1.2

/-- Filling is a change of the words. -/
theorem keeps_fill (value : Bool) (start stop : Nat) :
    Keeps (Under h P Q w₀) (changeWords (Word.Run.fill value start stop) : BitAct σ α Unit) :=
  keeps_changeWords fun _ _ => Word.Run.size_fill

/-- Moving is a change of the words. -/
theorem keeps_move (source destination count : Nat) :
    Keeps (Under h P Q w₀)
      (changeWords (Word.Run.move · source destination count) : BitAct σ α Unit) :=
  keeps_changeWords fun _ _ => Word.Run.size_move

/-- Reversing is a change of the words. -/
theorem keeps_reverse (start stop : Nat) :
    Keeps (Under h P Q w₀) (changeWords (Word.Run.reverse start stop) : BitAct σ α Unit) :=
  keeps_changeWords fun _ _ => Word.Run.size_reverse

/-- Words are copied over the old ones in place. -/
theorem keeps_writeWords (source : Array Word) :
    Keeps (Under h P Q w₀) (writeWords source : BitAct σ α Unit) := by
  apply keeps_changeWords
  intro words words' hwritten
  split at hwritten
  · rename_i hle
    cases hwritten
    rw [Array.size_append, Array.size_extract, Nat.min_self]
    exact Nat.add_sub_cancel' hle
  · cases hwritten

/-- A bit is changed in place. -/
theorem keeps_changeBit (index : Nat) (change : BitChange) :
    Keeps (Under h P Q w₀) (changeBit index change : BitAct σ α (Option Bool)) := by
  apply keeps_held
  intro s hs
  apply (keeps_ofOption _ _).bind
  intro old
  apply Keeps.bind _ fun _ => keeps_pure _
  exact keeps_hold ⟨hs.1, (region_of_size Array.size_setIfInBounds).symm ▸ hs.2⟩

/-- A length is declared in place. -/
theorem keeps_setLen (len : Nat) : Keeps (Under h P Q w₀) (setLen len : BitAct σ α Unit) := by
  apply keeps_held
  exact fun s hs => keeps_hold (s := { s with len }) hs

/-- Looking at a bit changes nothing. -/
theorem keeps_bit (index : Nat) : Keeps (Under h P Q w₀) (bit index : BitAct σ α Bool) := by
  apply keeps_held
  exact fun s _ => keeps_ofOption _ _

/-- Looking a bit up changes nothing. -/
theorem keeps_get (index : Nat) : Keeps (Under h P Q w₀) (get index : BitAct σ α Bool) := by
  apply keeps_held
  intro s _
  apply keeps_ofExcept_bind
  exact fun _ _ => keeps_bit index

/-- Bits are changed in place, one change after the other. -/
theorem keeps_changeBits (index : Nat) (changes : List BitChange) :
    Keeps (Under h P Q w₀) (changes.mapM (changeBit index) : BitAct σ α (List (Option Bool))) := by
  induction changes with
  | nil => exact keeps_pure _
  | cons change rest ih =>
      rw [List.mapM_cons]
      apply (keeps_changeBit index change).bind
      intro _
      exact ih.bind fun _ => keeps_pure _

/-- A bit is changed in place if there is one at the index. -/
theorem keeps_change (index : Nat) (changes : List BitChange) :
    Keeps (Under h P Q w₀) (change index changes : BitAct σ α (List (Option Bool))) := by
  apply keeps_held
  intro s _
  apply keeps_ofExcept_bind
  exact fun _ _ => keeps_changeBits index changes

/-- A bit is set in place. -/
theorem keeps_set (index : Nat) (value : Bool) :
    Keeps (Under h P Q w₀) (set index value : BitAct σ α (Option Bool)) := by
  apply keeps_held
  intro s _
  apply keeps_ofExcept_bind
  exact fun _ _ => keeps_changeBit index _

/-- The last bit is read, and the length declared anew. -/
theorem keeps_pop : Keeps (Under h P Q w₀) (pop : BitAct σ α (Option Bool)) := by
  apply keeps_held
  intro s _
  apply Keeps.ite (fun _ => keeps_pure _)
  intro _
  exact (keeps_setLen _).bind fun _ => keeps_changeBit _ _

/-- What is cut off is cleared in place. -/
theorem keeps_truncate (n : Nat) : Keeps (Under h P Q w₀) (truncate n : BitAct σ α Unit) := by
  apply keeps_held
  intro s _
  apply Keeps.ite (fun _ => keeps_pure _)
  intro _
  exact (keeps_fill _ _ _).bind fun _ => keeps_setLen _

/-- Bits are written in place. -/
theorem keeps_write (index : Nat) (values : List Bool) :
    Keeps (Under h P Q w₀) (write index values : BitAct σ α Unit) := by
  induction values generalizing index with
  | nil => exact keeps_pure _
  | cons value rest ih => exact (keeps_changeBit index _).bind fun _ => ih (index + 1)

/-- What is behind a window is moved down in place. -/
theorem keeps_closeWindow (start stop : Nat) :
    Keeps (Under h P Q w₀) (closeWindow start stop : BitAct σ α Unit) := by
  apply keeps_held
  intro s _
  apply Keeps.ite (fun _ => keeps_pure _)
  intro _
  apply (keeps_move _ _ _).bind
  intro _
  apply (keeps_fill _ _ _).bind
  exact fun _ => keeps_setLen _

/-- Erasing a bit closes a window of one. -/
theorem keeps_erase (index : Nat) : Keeps (Under h P Q w₀) (erase index : BitAct σ α Bool) := by
  apply keeps_held
  intro s _
  apply keeps_ofExcept_bind
  intro _ _
  apply (keeps_bit index).bind
  intro _
  exact (keeps_closeWindow _ _).bind fun _ => keeps_pure _

/-- Erasing bits closes their window. -/
theorem keeps_eraseSpan (span : Span) :
    Keeps (Under h P Q w₀) (eraseSpan span : BitAct σ α Unit) := by
  apply keeps_held
  intro s _
  apply keeps_ofExcept_bind
  exact fun bounds _ => keeps_closeWindow bounds.1 bounds.2

/-! ## Storage -/

section Upkeep

variable (hQ : ∀ e : Event α, e.Upkeep h.allocator.place most → Q e)

include hQ

/-- One request is made for the copy, of the size it is to have. -/
theorem yields_allocateCopy (source : Array Word) {count : Nat}
    (hle : Word.shape.bytes * count ≤ most) :
    Yields (w₀.Evolves Q) (fun r => r.2.size = count) (allocateCopy h.allocator source count) := by
  apply yields_require_bind
  intro hroom
  apply (Region.yields_allocate hQ hle).bind
  intro _ _
  apply yields_pure
  rw [Array.size_append, Array.size_replicate]
  exact Nat.add_sub_cancel' hroom

/-- The block that is replaced goes back to the allocator that it came from. -/
theorem keeps_install {block : Option Block} {words : Array Word} (len : Nat)
    (hregion : P ⟨words.size, block⟩) :
    Keeps (Under h P Q w₀) (install block words len : BitAct σ α Unit) := by
  apply keeps_held
  rintro s ⟨rfl, -⟩
  apply (keeps_hold (s := { s with block, words, len }) ⟨rfl, hregion⟩).bind
  exact fun _ => keeps_inWorld (Region.keeps_release hQ _ _)

/-- A block goes back to the allocator that it came from. -/
theorem keeps_dispose {s : BitSequence} (hs : s.handle = h) : Keeps (w₀.Evolves Q) s.dispose := by
  subst hs
  exact Region.keeps_release hQ _ _

/-- A new block is requested, and the old one goes back. -/
theorem keeps_reallocate {count : Nat} (hle : Word.shape.bytes * count ≤ most)
    (hP : ∀ r, r.capacity = count → P r) :
    Keeps (Under h P Q w₀) (reallocate count : BitAct σ α Unit) := by
  apply keeps_held
  rintro s ⟨rfl, -⟩
  apply (yields_inWorld (V := fun r => r.2.size = count) _).bind_keeps
  · exact fun r hr => keeps_install hQ _ (hP ⟨r.2.size, r.1⟩ hr)
  · apply (keeps_require _ _).bind_yields
    intro _
    apply (World.keeps_note (Event.chore_of_upkeep hQ) _).bind_yields
    exact fun _ => yields_allocateCopy hQ _ hle

/-- Giving up spare words asks for as many as are in use, whatever the handle admits. -/
theorem shrink_evolves {s : BitSequence} {w : World σ α} (hs : s.handle = h ∧ P s.region)
    (hle : Word.shape.bytes * Word.wordsFor s.len ≤ most)
    (hP : ∀ r, r.capacity ≤ Word.wordsFor s.len → P r) (hw : w₀.Evolves Q w) :
    (shrink (s, w)).Meets (.always (Under h P Q w₀)) := by
  simp only [shrink, bind_meets, held_meets, ite_meets, pure_meets, hold_meets]
  refine ⟨fun _ => ⟨hs, hw⟩, fun _ => ⟨fun _ => ?_, fun _ => ?_⟩⟩
  · obtain ⟨rfl, -⟩ := hs
    exact keeps_inWorld (Region.keeps_release hQ _ _) _ ⟨⟨rfl, hP _ (Nat.zero_le _)⟩, hw⟩
  · exact keeps_reallocate hQ hle (fun r hr => hP r hr.le) _ ⟨hs, hw⟩

/-- Work on a new bit sequence leaves its handle; giving it up only returns its block. -/
theorem yields_build {work : BitAct σ α β} (hempty : P .empty) (hwork : Keeps (Under h P Q w₀) work) :
    Yields (w₀.Evolves Q) (fun r => r.1.handle = h ∧ P r.1.region) (build h work) := by
  intro w hw
  rw [build, owning_meets]
  apply (hwork (empty h, w) ⟨⟨rfl, hempty⟩, hw⟩).imp
  · exact fun _ _ hu => hu
  · exact fun _ u hu => keeps_dispose hQ hu.1.1 u.2 hu.2
  · exact fun _ u hu => keeps_dispose hQ hu.1.1 u.2 hu.2

/-- A copy asks for as many words as are in use, whatever the handle admits. -/
theorem yields_copy {s : BitSequence} (hs : s.handle = h)
    (hle : Word.shape.bytes * Word.wordsFor s.len ≤ most) :
    Yields (w₀.Evolves Q) (fun t => t.handle = h ∧ t.words.size ≤ Word.wordsFor s.len) s.copy := by
  subst hs
  have hle' : Word.shape.bytes * s.asWords.size ≤ most :=
    Nat.le_trans (Nat.mul_le_mul_left _ s.size_asWords_le) hle
  apply (yields_allocateCopy hQ s.asWords hle').bind
  exact fun _ hr => yields_pure ⟨rfl, hr.trans_le s.size_asWords_le⟩

/-- A copy that is taken for granted is requested like any other. -/
theorem yields_copyDemanded {s : BitSequence} (hs : s.handle = h)
    (hle : Word.shape.bytes * Word.wordsFor s.len ≤ most) :
    Yields (w₀.Evolves Q) (fun t => t.handle = h ∧ t.words.size ≤ Word.wordsFor s.len)
      s.copyDemanded := by
  intro w hw
  have hcopy := yields_copy hQ hs hle w hw
  unfold copyDemanded
  split
  · rename_i he
    rw [he] at hcopy
    exact hcopy
  · exact hcopy

/-! ## Growth -/

/-- What is asked for is the room for `capacity` bits, if the handle admits that. -/
theorem keeps_reserve (capacity : Nat)
    (hle : capacity ≤ (empty h).maxSize → Word.shape.bytes * Word.wordsFor capacity ≤ most)
    (hP : ∀ r, r.capacity = Word.wordsFor capacity → r.capacity ≤ (empty h).maxWords → P r) :
    Keeps (Under h P Q w₀) (reserve capacity : BitAct σ α Unit) := by
  apply keeps_held
  rintro s ⟨rfl, -⟩
  apply Keeps.ite (fun _ => keeps_pure _)
  intro _
  apply keeps_ofExcept_bind
  intro _ hcheck
  have hfits := Capacity.check_eq_ok_iff.mp hcheck
  exact keeps_reallocate hQ (hle hfits) fun r hr =>
    hP r hr (hr.trans_le (Word.wordsFor_le.mpr hfits))

section Growth

variable (hmax : h.maxBytes ≤ most) (hP : ∀ r, r.capacity ≤ (empty h).maxWords → P r)

include hmax hP

/-- Growing makes no larger a request than the handle admits. -/
theorem keeps_reserveMore (additional : Nat) :
    Keeps (Under h P Q w₀) (reserveMore additional : BitAct σ α Unit) := by
  apply keeps_held
  rintro s ⟨rfl, -⟩
  apply keeps_ofExcept_bind
  intro required _
  apply Keeps.ite (fun _ => keeps_pure _)
  intro _
  apply keeps_ofExcept_bind
  intro capacity hgrow
  have hfits := (Capacity.grow_bounds hgrow).2
  exact keeps_reallocate hQ (bytes_le hmax hfits) fun r hr =>
    hP r (hr.trans_le (Word.wordsFor_le.mpr hfits))

/-- A push grows first if there is no room. -/
theorem keeps_push (value : Bool) : Keeps (Under h P Q w₀) (push value : BitAct σ α Unit) := by
  apply keeps_held
  intro s _
  have hwritten : Keeps (Under h P Q w₀) (do
      let _ ← changeBit s.len (.replace value)
      setLen (s.len + 1) : BitAct σ α Unit) :=
    (keeps_changeBit _ _).bind fun _ => keeps_setLen _
  apply Keeps.ite
  · exact fun _ => (keeps_reserveMore hQ hmax hP 1).bind fun _ => hwritten
  · exact fun _ => hwritten

/-- Resizing reserves first. -/
theorem keeps_resize (n : Nat) (value : Bool) :
    Keeps (Under h P Q w₀) (resize n value : BitAct σ α Unit) := by
  apply keeps_held
  intro s _
  apply Keeps.ite (fun _ => keeps_truncate n)
  intro _
  apply (keeps_reserve hQ n (bytes_le hmax) fun r _ => hP r).bind
  intro _
  apply (keeps_fill _ _ _).bind
  exact fun _ => keeps_setLen n

/-- A window is opened after growing, if there is no room for it. -/
theorem keeps_openWindow (position count : Nat) :
    Keeps (Under h P Q w₀) (openWindow position count : BitAct σ α Unit) := by
  apply keeps_held
  intro s _
  apply keeps_ofExcept_bind
  intro _ _
  apply Keeps.ite (fun _ => keeps_pure _)
  intro _
  apply (keeps_reserveMore hQ hmax hP count).bind
  intro _
  apply (keeps_move _ _ _).bind
  exact fun _ => keeps_setLen _

/-- Copies fill a window that was opened for them. -/
theorem keeps_insertCopies (position count : Nat) (value : Bool) :
    Keeps (Under h P Q w₀) (insertCopies position count value : BitAct σ α Unit) :=
  (keeps_openWindow hQ hmax hP position count).bind fun _ => keeps_fill _ _ _

/-- Given bits are written to a window that was opened for them. -/
theorem keeps_insertAll (position : Nat) (values : List Bool) :
    Keeps (Under h P Q w₀) (insertAll position values : BitAct σ α Unit) :=
  (keeps_openWindow hQ hmax hP position values.length).bind fun _ => keeps_write position values

/-- An extension is an insertion at the end. -/
theorem keeps_extendAll (values : List Bool) :
    Keeps (Under h P Q w₀) (extendAll values : BitAct σ α Unit) := by
  apply keeps_held
  exact fun s _ => keeps_insertAll hQ hmax hP s.len values

/-- An assignment reserves first. -/
theorem keeps_assignCopies (count : Nat) (value : Bool) :
    Keeps (Under h P Q w₀) (assignCopies count value : BitAct σ α Unit) := by
  apply (keeps_reserve hQ count (bytes_le hmax) fun r _ => hP r).bind
  intro _
  apply (keeps_fill _ _ _).bind
  intro _
  exact (keeps_truncate count).bind fun _ => keeps_setLen count

/-- An assignment reserves first. -/
theorem keeps_assignAll (values : List Bool) :
    Keeps (Under h P Q w₀) (assignAll values : BitAct σ α Unit) := by
  apply (keeps_reserve hQ values.length (bytes_le hmax) fun r _ => hP r).bind
  intro _
  apply (keeps_write 0 values).bind
  intro _
  exact (keeps_truncate _).bind fun _ => keeps_setLen _

/-- Items are pushed one by one. -/
theorem keeps_pushValid (items : Feed (Option Bool)) :
    Keeps (Under h P Q w₀) (items.pushValid push : BitAct σ α Bool) :=
  Feed.keeps_pushValid (fun value => keeps_push hQ hmax hP value) items

/-- What is reserved on a hint is within what the handle admits. -/
theorem keeps_reserveHinted (hint : Option Nat) :
    Keeps (Under h P Q w₀) (reserveHinted hint : BitAct σ α Unit) := by
  apply keeps_held
  exact fun s _ => keeps_reserve hQ _ (bytes_le hmax) fun r _ => hP r

/-- A new bit sequence has the handle that it was made with. -/
theorem yields_withCapacity (capacity : Nat) :
    Yields (w₀.Evolves Q) (fun s => s.handle = h ∧ P s.region) (withCapacity capacity h) := by
  have hwork : Keeps (Under h P Q w₀) (reserve capacity : BitAct σ α Unit) :=
    keeps_reserve hQ capacity (bytes_le hmax) fun r _ => hP r
  apply (yields_build hQ (hP _ (Nat.zero_le _)) hwork).bind
  exact fun _ hr => yields_pure hr

theorem yields_replicate (count : Nat) (value : Bool) :
    Yields (w₀.Evolves Q) (fun s => s.handle = h ∧ P s.region) (replicate count value h) := by
  apply (yields_build hQ (hP _ (Nat.zero_le _)) (keeps_assignCopies hQ hmax hP count value)).bind
  exact fun _ hr => yields_pure hr

theorem yields_ofList (values : List Bool) :
    Yields (w₀.Evolves Q) (fun s => s.handle = h ∧ P s.region) (ofList values h) := by
  apply (yields_build hQ (hP _ (Nat.zero_le _)) (keeps_assignAll hQ hmax hP values)).bind
  exact fun _ hr => yields_pure hr

theorem yields_read (hint : Option Nat) (items : Feed (Option Bool)) :
    Yields (w₀.Evolves Q) (fun slot => ∀ s, slot = some s → s.handle = h ∧ P s.region)
      (read hint items h) := by
  have hpushed : Keeps (Under h P Q w₀)
      (do reserveHinted hint; items.pushValid push : BitAct σ α Bool) :=
    (keeps_reserveHinted hQ hmax hP hint).bind fun _ => keeps_pushValid hQ hmax hP items
  apply (yields_build hQ (hP _ (Nat.zero_le _)) hpushed).bind
  intro r hr
  by_cases hvalid : r.2
  · simp only [hvalid, if_true]
    apply yields_pure
    intro s hs
    exact Option.some.inj hs ▸ hr
  · simp only [hvalid]
    apply (keeps_dispose hQ hr.1).bind_yields
    intro _
    apply yields_pure
    intro s hs
    cases hs

end Growth

end Upkeep

/-! ## Iterators -/

section Feeds

variable (hQ : ∀ e : Event α, e.Local h.allocator.place most → Q e) (hmax : h.maxBytes ≤ most)
  (hP : ∀ r, r.capacity ≤ (empty h).maxWords → P r)

include hQ hmax hP

/-- Apart from asking the iterator, this is one push after the other. -/
theorem keeps_pushFeed (feed : Feed Bool) :
    Keeps (Under h P Q w₀) (pushFeed feed : BitAct σ α Unit) := by
  have hrecord : ∀ e : Event α, e.place? = none →
      Keeps (Under h P Q w₀) (inWorld (World.record e)) :=
    fun _ he => keeps_inWorld (World.keeps_record_unasked (Event.unasked_of_local hQ) he)
  induction feed with
  | finish => exact hrecord _ rfl
  | raise message => exact (hrecord _ rfl).bind fun _ => keeps_fault _
  | yield value rest ih =>
      apply (hrecord _ rfl).bind
      intro _
      exact (keeps_push (Event.upkeep_of_local hQ) hmax hP value).bind fun _ => ih

/-- What the iterator yields is pushed, and then rotated in place or taken away again. -/
theorem keeps_insertFeed (position : Nat) (feed : Feed Bool) :
    Keeps (Under h P Q w₀) (insertFeed position feed : BitAct σ α Unit) := by
  apply keeps_held
  intro before _
  apply keeps_ofExcept_bind
  intro _ _
  apply ((keeps_pushFeed hQ hmax hP feed).onRefusal _).bind
  · intro _
    apply keeps_held
    intro s _
    apply (keeps_reverse _ _).bind
    intro _
    apply (keeps_reverse _ _).bind
    exact fun _ => keeps_reverse _ _
  · apply keeps_held
    intro s _
    apply (keeps_inWorld (World.keeps_note (Event.chore_of_local hQ) _)).bind
    exact fun _ => keeps_truncate _

/-- An extension is an insertion at the end. -/
theorem keeps_extendFeed (feed : Feed Bool) :
    Keeps (Under h P Q w₀) (extendFeed feed : BitAct σ α Unit) := by
  apply keeps_held
  exact fun s _ => keeps_insertFeed hQ hmax hP s.len feed

/-- What the iterator yields overwrites the old bits, and is pushed behind them. -/
theorem keeps_assignFeed (feed : Feed Bool) :
    Keeps (Under h P Q w₀) (assignFeed feed : BitAct σ α Unit) :=
  (keeps_truncate 0).bind fun _ => keeps_pushFeed hQ hmax hP feed

end Feeds

/-! ## Two bit sequences -/

/-- A complete copy takes the place of the contents where the handle of the other bit sequence comes along
and blocks cannot pass. -/
theorem copyFrom_foreign {s other : BitSequence} {w : World σ α}
    (hforeign : s.handle.Foreign other.handle) :
    copyFrom other (s, w) = (do
      let copied ← inWorld other.copy
      hold copied
      inWorld s.dispose : BitAct σ α Unit) (s, w) := by
  have hcomes : (other.handle.propagates && !s.handle.isEquivalent other.handle) = true := by
    simp only [hforeign.1, hforeign.2, Bool.not_false, Bool.and_self]
  simp only [copyFrom, bind, Act.bind, held, hcomes, if_true]

/-- Where the other handle is foreign, its allocator is asked for a copy, and the old words go back: either
everything stays, or the copy is there under the other handle. -/
theorem copyFrom_evolves_foreign {s other : BitSequence} {w : World σ α}
    (hforeign : s.handle.Foreign other.handle)
    (hQ : ∀ e : Event α, e.Upkeep s.handle.allocator.place 0 → Q e)
    (hQ' : ∀ e : Event α, e.Upkeep other.handle.allocator.place most → Q e)
    (hle : Word.shape.bytes * Word.wordsFor other.len ≤ most) (hw : w₀.Evolves Q w) :
    (copyFrom other (s, w)).Meets (.always fun u =>
      (u.1.handle = s.handle ∧ u.1.region = s.region ∨
        u.1.handle = other.handle ∧ u.1.words.size ≤ Word.wordsFor other.len) ∧
          w₀.Evolves Q u.2) := by
  rw [copyFrom_foreign hforeign]
  simp only [bind_meets, inWorld_meets, hold_meets]
  apply (yields_copy hQ' rfl hle w hw).imp
  · intro t w' ht
    exact (keeps_dispose hQ rfl w' ht.2).always_imp fun _ hw' => ⟨.inr ht.1, hw'⟩
  · exact fun _ _ hw' => ⟨.inl ⟨rfl, rfl⟩, hw'⟩
  · exact fun _ _ hw' => ⟨.inl ⟨rfl, rfl⟩, hw'⟩

/-- Where the other handle is not foreign, only the allocator of the bit sequence's own one is asked, and
either handle may be there in the end. -/
theorem copyFrom_evolves_own {s other : BitSequence} {w : World σ α}
    (hown : ¬ s.handle.Foreign other.handle)
    (hQ : ∀ e : Event α, e.Upkeep s.handle.allocator.place most → Q e) (hregion : P s.region)
    (hle : other.len ≤ s.maxSize → Word.shape.bytes * Word.wordsFor other.len ≤ most)
    (hP : ∀ r, r.capacity = Word.wordsFor other.len → r.capacity ≤ s.maxWords → P r)
    (hw : w₀.Evolves Q w) :
    (copyFrom other (s, w)).Meets (.always fun u =>
      ((u.1.handle = s.handle ∨ other.handle.propagates ∧ u.1.handle = other.handle) ∧
        P u.1.region) ∧ w₀.Evolves Q u.2) := by
  have hweaken : ∀ u : BitSequence × World σ α, Under s.handle P Q w₀ u →
      ((u.1.handle = s.handle ∨ other.handle.propagates ∧ u.1.handle = other.handle) ∧
        P u.1.region) ∧ w₀.Evolves Q u.2 :=
    fun u hu => ⟨⟨.inl hu.1.1, hu.1.2⟩, hu.2⟩
  apply bind_meets.mpr
  apply held_meets.mpr
  apply ite_meets.mpr
  simp only [Bool.and_eq_true, Bool.not_eq_true']
  refine ⟨fun hforeign => absurd hforeign hown, fun _ => ?_⟩
  apply (keeps_reserve hQ other.len hle hP).bind_always ⟨⟨rfl, hregion⟩, hw⟩ hweaken
  intro _ u hu
  apply (keeps_writeWords _).bind_always hu hweaken
  intro _ u hu
  apply (keeps_truncate _).bind_always hu hweaken
  intro _ u hu
  apply (keeps_setLen _).bind_always hu hweaken
  intro _ u hu
  exact ite_meets.mpr
    ⟨fun hcomes => ⟨⟨.inr ⟨hcomes, rfl⟩, hu.1.2⟩, hu.2⟩, fun _ => hweaken u hu⟩

/-- Where blocks cannot pass between the handles, moving asks for as many words as are in use, whatever
the handle admits.  The other bit sequence is left with its words, or with none. -/
theorem moveFrom_evolves {s other : BitSequence} {w : World σ α}
    (hQ : ∀ e : Event α, e.Upkeep s.handle.allocator.place most → Q e) (hregion : P s.region)
    (hle : Word.shape.bytes * Word.wordsFor other.len ≤ most)
    (hP : s.handle.isEquivalent other.handle = true → P other.region)
    (hP' : s.handle.isEquivalent other.handle = false →
      ∀ r, r.capacity ≤ Word.wordsFor other.len → P r) (hw : w₀.Evolves Q w) :
    (moveFrom ((s, other), w)).Meets (.always fun u => Under s.handle P Q w₀ (u.1.1, u.2) ∧
      u.1.2.handle = other.handle ∧ (u.1.2.region = other.region ∨
        s.handle.isEquivalent other.handle = true ∧ u.1.2.region = .empty)) := by
  have hle' : Word.shape.bytes * other.asWords.size ≤ most :=
    Nat.le_trans (Nat.mul_le_mul_left _ other.size_asWords_le) hle
  simp only [moveFrom, bind_meets, held_meets, ite_meets, inWorld_meets, hold_meets, onFirst_meets,
    onSecond_meets]
  constructor
  · intro hsame
    have hkept := keeps_install hQ other.len (hP hsame) (s, w) ⟨⟨rfl, hregion⟩, hw⟩
    exact hkept.always_imp fun _ hu => ⟨hu, rfl, .inr ⟨hsame, rfl⟩⟩
  · intro hapart
    have hnew := hP' (Bool.eq_false_iff.mpr hapart)
    apply (yields_allocateCopy hQ other.asWords hle' w hw).imp
    · intro r w₁ hw₁
      have hfresh : P ⟨r.2.size, r.1⟩ := hnew _ (hw₁.1.trans_le other.size_asWords_le)
      apply (keeps_install hQ other.len hfresh (s, w₁) ⟨⟨rfl, hregion⟩, hw₁.2⟩).imp
      · intro _ u hu
        have hcleared := keeps_truncate 0 (P := (· = other.region)) (other, u.2) ⟨⟨rfl, rfl⟩, hu.2⟩
        exact hcleared.always_imp fun _ hv => ⟨⟨hu.1, hv.2⟩, hv.1.1, .inl hv.1.2⟩
      · exact fun _ _ hu => ⟨hu, rfl, .inl rfl⟩
      · exact fun _ _ hu => ⟨hu, rfl, .inl rfl⟩
    · exact fun _ _ hw₁ => ⟨⟨⟨rfl, hregion⟩, hw₁⟩, rfl, .inl rfl⟩
    · exact fun _ _ hw₁ => ⟨⟨⟨rfl, hregion⟩, hw₁⟩, rfl, .inl rfl⟩

end Growable.BitSequence
