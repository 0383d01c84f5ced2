import Growable.Proofs.BitSequence.Content
import Growable.Proofs.BitSequence.Evolution
import Growable.Proofs.Capacity
import Growable.Proofs.Checked.Staging
import Growable.Proofs.Checked.Word

/-!
# Single bits and the storage of bit sequences, checked

The access to single bits and the operations that give a bit sequence other words, with all that they
compute: the bits that the words can hold are counted, the words in use are a part of all words, a bit is
looked up in a word that exists.  None of it fails for a sound bit sequence the bits of which can be counted
(`BitSequence.Counted`).  A handle admits no more words than that, so that every operation leaves the bit
sequence counted (`BitSequence.Counted.meets`).
-/

namespace Growable

open Checked
open Word.Run (Rewrites)

variable {σ α β : Type}

/-- The word after a change of one of its bits, and what the change answers. -/
def BitChange.applyChecked (change : BitChange) (word : Word) (place : Nat) : Option (Option Bool × Word) :=
  match change with
  | get => do
    let old ← word.isSetChecked place
    return (some old, word)
  | set value => do
    let new ← word.assignChecked place value
    return (none, new)
  | replace value => do
    let old ← word.isSetChecked place
    let new ← word.assignChecked place value
    return (some old, new)
  | flip => do
    let new ← word.flipChecked place
    let set ← new.isSetChecked place
    return (some set, new)

/-- A place within a word can be changed. -/
theorem BitChange.applyChecked_eq (change : BitChange) (word : Word) {place : Nat} (h : place < Word.size) :
    change.applyChecked word place = some (change.apply word place) := by
  cases change <;>
    simp only [applyChecked, apply, Word.isSetChecked_eq h, Word.assignChecked_eq h, Word.flipChecked_eq h,
      Option.bind_eq_bind, Option.bind_some, Option.pure_def]

namespace BitSequence

/-- The number of bits that the words can hold. -/
def capacityChecked (s : BitSequence) : Option Nat := Size.mul? s.words.size Word.size

/-- The most bits that the handle admits. -/
def maxSizeChecked (s : BitSequence) : Option Nat := Size.mul? s.maxWords Word.size

/-- The words in use. -/
def asWordsChecked (s : BitSequence) : Option (Array Word) := do
  guard (Word.wordsFor s.len ≤ s.words.size)
  return s.asWords

/-! ## Single bits -/

/-- The bit at an index within the words. -/
def bitChecked (index : Nat) : Checked (BitSequence × World σ α) Bool := do
  let s ← ofAct Act.held
  ofOption (Word.Run.bitChecked s.words index)

/-- Changes the bit at an index within the words. -/
def changeBitChecked (index : Nat) (change : BitChange) : Checked (BitSequence × World σ α) (Option Bool) := do
  let s ← ofAct Act.held
  let (word, place) := Word.split index
  let old ← ofOption s.words[word]?
  let (answer, new) ← ofOption (change.applyChecked old place)
  ofAct (Act.hold { s with words := s.words.setIfInBounds word new })
  return answer

/-- Changes the words as a whole. -/
def changeWordsChecked (change : Array Word → Option (Array Word)) :
    Checked (BitSequence × World σ α) Unit := do
  let s ← ofAct Act.held
  let words ← ofOption (change s.words)
  ofAct (Act.hold { s with words })

/-- The bit at an index. -/
def getChecked (index : Nat) : Checked (BitSequence × World σ α) Bool := do
  let s ← ofAct Act.held
  ofAct (Act.ofExcept (checkIndex index s.len))
  bitChecked index

/-- Picks out the bit at an index, and changes it again and again. -/
def changeChecked (index : Nat) (changes : List BitChange) :
    Checked (BitSequence × World σ α) (List (Option Bool)) := do
  let s ← ofAct Act.held
  ofAct (Act.ofExcept (checkIndex index s.len))
  changes.mapM (changeBitChecked index)

/-- Sets the bit at an index to a value, and comes to the previous one. -/
def setChecked (index : Nat) (value : Bool) : Checked (BitSequence × World σ α) (Option Bool) := do
  let s ← ofAct Act.held
  ofAct (Act.ofExcept (checkIndex index s.len))
  changeBitChecked index (.replace value)

/-! ## Storage -/

/-- A block of `count` words that begins with the words of `source`. -/
def allocateCopyChecked (allocator : Allocator) (source : Array Word) (count : Nat) :
    Checked (World σ α) (Option Block × Array Word) := do
  require (source.size ≤ count)
  ofAct (allocateCopy allocator source count)

/-- Takes new words that hold `len` bits, and releases the old ones. -/
def installChecked (block : Option Block) (words : Array Word) (len : Nat) :
    Checked (BitSequence × World σ α) Unit := do
  let s ← ofAct Act.held
  ofAct (Act.hold { s with block, words, len })
  inWorld (s.region.releaseChecked Word.shape s.handle.allocator)

/-- Releases the words. -/
def disposeChecked (s : BitSequence) : Checked (World σ α) Unit :=
  s.region.releaseChecked Word.shape s.handle.allocator

/-- Moves the bits to a new block of exactly `count` words. -/
def reallocateChecked (count : Nat) : Checked (BitSequence × World σ α) Unit := do
  let s ← ofAct Act.held
  let (block, words) ← inWorld do
    require (Word.wordsFor s.len ≤ count)
    ofAct (World.note (.reallocatingWords s.words.size count))
    let source ← ofOption s.asWordsChecked
    allocateCopyChecked s.handle.allocator source count
  installChecked block words s.len

/-- Makes room for `capacity` bits in all. -/
def reserveChecked (capacity : Nat) : Checked (BitSequence × World σ α) Unit := do
  let s ← ofAct Act.held
  let room ← ofOption s.capacityChecked
  if capacity ≤ room then
    return
  let most ← ofOption s.maxSizeChecked
  ofAct (Act.ofExcept (Capacity.check capacity most))
  reallocateChecked (Word.wordsFor capacity)

/-- Makes room for `additional` more bits by the growth policy. -/
def reserveMoreChecked (additional : Nat) : Checked (BitSequence × World σ α) Unit := do
  let s ← ofAct Act.held
  let required ← ofAct (Act.ofExcept (s.required additional))
  let room ← ofOption s.capacityChecked
  if required ≤ room then
    return
  let most ← ofOption s.maxSizeChecked
  let capacity ← ofAct (Act.ofExcept (Capacity.grow room required most))
  reallocateChecked (Word.wordsFor capacity)

/-- Gives up all words that hold no bits. -/
def shrinkChecked : Checked (BitSequence × World σ α) Unit := do
  let s ← ofAct Act.held
  let count := Word.wordsFor s.len
  if count = s.words.size then
    return
  if count = 0 then
    ofAct (Act.hold { s with block := none, words := #[] })
    inWorld (s.region.releaseChecked Word.shape s.handle.allocator)
  else
    reallocateChecked count

/-- Works on a new bit sequence, and comes to it; it is disposed of when the work is refused or faults. -/
def buildChecked (handle : Handle) (work : Checked (BitSequence × World σ α) β) :
    Checked (World σ α) (BitSequence × β) :=
  owning (empty handle) (fun _ s => s.disposeChecked) work

/-- A bit sequence without bits, with room for `capacity` of them. -/
def withCapacityChecked (capacity : Nat) (handle : Handle) : Checked (World σ α) BitSequence := do
  let (s, _) ← buildChecked handle (reserveChecked capacity)
  return s

/-- A copy of a bit sequence, in just enough words. -/
def copyChecked (s : BitSequence) : Checked (World σ α) BitSequence := do
  let source ← ofOption s.asWordsChecked
  let (block, words) ← allocateCopyChecked s.handle.allocator source source.size
  return ⟨block, words, s.len, s.handle⟩

/-- A copy that the caller takes for granted. -/
def copyDemandedChecked (s : BitSequence) : Checked (World σ α) BitSequence := fun w =>
  match s.copyChecked w with
  | some (.refused e w) => some (.faulted (.copyRefused e) w)
  | outcome => outcome

/-! ## Custody and capacity -/

/-- A sound bit sequence, the bits of which can be counted. -/
structure Counted (m : Multiset (Asset α)) (u : BitSequence × World σ α) : Prop where
  sound : Sound m u
  capacity_le : u.1.capacity ≤ Size.limit

variable {s t : BitSequence} {w w' : World σ α} {m : Multiset (Asset α)}

/-- A region that the handle admits has a number of bits that is a size. -/
theorem capacity_le_limit {h : Handle} (r : Region) (hr : r.capacity ≤ (empty h).maxWords) :
    r.capacity * Word.size ≤ Size.limit :=
  (Nat.mul_le_mul_right _ hr).trans (maxWords_le_limit _)

/-- The length is a size. -/
theorem Counted.len_le (h : Counted m (s, w)) : s.len ≤ Size.limit :=
  h.sound.len_le.trans h.capacity_le

/-- The capacity in bits is computed without a wrap. -/
theorem Counted.capacityChecked_eq (h : Counted m (s, w)) : s.capacityChecked = some s.capacity :=
  Size.mul?_of_le h.capacity_le

/-- The maximum size in bits is computed without a wrap. -/
theorem maxSizeChecked_eq (s : BitSequence) : s.maxSizeChecked = some s.maxSize :=
  Size.mul?_of_le s.maxWords_le_limit

/-- The words that the bits take are among those that are there. -/
theorem asWordsChecked_eq (hs : s.Valid) : s.asWordsChecked = some s.asWords :=
  Word.guard_bind (Word.wordsFor_le.mpr hs.len_le) _

/-- An operation that is sound, and that only ever takes words that the handle admits, keeps the bits
countable, however it ends. -/
theorem Counted.meets {act : BitAct σ α β} {post : Post BitSequence β} (h : Counted m (s, w))
    (hmeets : (act (s, w)).Meets (soundly m post))
    (hkeeps : Act.Keeps (Under s.handle (fun r => r.capacity * Word.size ≤ Size.limit) (fun _ => True) w) act) :
    (act (s, w)).Meets ⟨fun b u => Counted m u ∧ post.done b u.1,
      fun e u => Counted m u ∧ post.refused e u.1, fun f u => Counted m u ∧ post.faulted f u.1⟩ := by
  have hunder := hkeeps (s, w) ⟨⟨rfl, h.capacity_le⟩, .refl w⟩
  refine (hmeets.and hunder).imp ?_ ?_ ?_
  · exact fun b u hu => ⟨⟨hu.1.1, hu.2.1.2⟩, hu.1.2⟩
  · exact fun e u hu => ⟨⟨hu.1.1, hu.2.1.2⟩, hu.1.2⟩
  · exact fun f u hu => ⟨⟨hu.1.1, hu.2.1.2⟩, hu.1.2⟩

/-- An event that concerns no asset. -/
theorem Counted.record {e : Event α} (h : Counted m (s, w)) (hgains : e.gains = 0) (hlosses : e.losses = 0) :
    Counted m (s, { w with trace := w.trace.push e }) :=
  ⟨⟨h.sound.valid, World.record_meets hgains hlosses h.sound.owns⟩, h.capacity_le⟩

/-- A new bit sequence has no capacity. -/
theorem counted_empty (handle : Handle) (h : w.Owns m) : Counted m (empty handle, w) :=
  ⟨sound_empty handle h, Nat.zero_le _⟩

/-- Afterwards the capacity is still a size. -/
theorem Counted.reserve_meets (h : Counted m (s, w)) (capacity : Nat) :
    (reserve capacity (s, w)).Meets ⟨fun _ u => Counted m u ∧ u.1.len = s.len ∧ capacity ≤ u.1.capacity,
      fun _ u => Counted m u, fun _ _ => False⟩ :=
  (h.meets (BitSequence.reserve_meets capacity h.sound) (keeps_reserve (fun _ _ => trivial) capacity
    (bytes_le (Nat.le_refl _)) fun r _ => capacity_le_limit r)).imp
    (fun _ _ hu => ⟨hu.1, hu.2.2.1, hu.2.2.2.2⟩) (fun _ _ hu => hu.1) (fun _ _ hu => hu.2)

/-- Afterwards the capacity is still a size. -/
theorem Counted.reserveMore_meets (h : Counted m (s, w)) (additional : Nat) :
    (reserveMore additional (s, w)).Meets
      ⟨fun _ u => Counted m u ∧ u.1.len = s.len ∧ s.len + additional ≤ u.1.capacity,
        fun _ u => Counted m u, fun _ _ => False⟩ :=
  (h.meets (BitSequence.reserveMore_meets additional h.sound) (keeps_reserveMore (fun _ _ => trivial)
    (Nat.le_refl _) capacity_le_limit additional)).imp
    (fun _ _ hu => ⟨hu.1, hu.2.2.1, hu.2.2.2.2⟩) (fun _ _ hu => hu.1) (fun _ _ hu => hu.2)

/-! ## Nothing fails -/

section Bits

variable {index : Nat} (h : index < s.capacity)

include h

/-- The word of a bit within the capacity is there. -/
theorem runs_bit : (bitChecked index).Runs (bit index) (s, w) := by
  have hword : (Word.split index).1 < s.words.size := (Nat.div_lt_iff_lt_mul (by decide)).mpr h
  have hbit : Word.Run.bit? s.words index
      = some (s.words[(Word.split index).1].isSet (Word.split index).2) := by
    unfold Word.Run.bit?
    dsimp only
    rw [Array.getElem?_eq_getElem hword]
    rfl
  refine runs_held ?_
  dsimp only
  rw [Word.Run.bitChecked_eq, hbit]
  exact runs_some rfl _

/-- The word of a bit within the capacity is there. -/
theorem runs_changeBit (change : BitChange) :
    (changeBitChecked index change).Runs (changeBit index change) (s, w) := by
  have hplace := (Word.split_spec index).2
  have hword : (Word.split index).1 < s.words.size := (Nat.div_lt_iff_lt_mul (by decide)).mpr h
  refine runs_held (runs_ofOption (Array.getElem?_eq_getElem hword) ?_)
  exact runs_value (change.applyChecked_eq _ hplace) (runs_ofAct _ _)

end Bits

/-- The words change as they would without the checks. -/
theorem runs_changeWords {change checked : Array Word → Option (Array Word)} {words : Array Word}
    (hchange : change s.words = some words) (hchecked : checked s.words = change s.words) :
    (changeWordsChecked checked).Runs (changeWords change) (s, w) := by
  refine runs_held ?_
  dsimp only
  rw [hchecked, hchange]
  exact runs_ofOption rfl (runs_ofAct _ _)

section Words

variable (hlimit : s.capacity ≤ Size.limit)

include hlimit

/-- The bits of all words can be counted. -/
theorem words_le_limit : Word.size * s.words.size ≤ Size.limit :=
  (Nat.mul_comm _ _).trans_le hlimit

/-- A run within the capacity is within the words. -/
theorem runs_fill (value : Bool) (start : Nat) {stop : Nat} (hstop : stop ≤ s.capacity) :
    (changeWordsChecked (Word.Run.fillChecked value start stop)).Runs
      (changeWords (Word.Run.fill value start stop)) (s, w) := by
  have hstop' : stop ≤ Word.size * s.words.size := hstop.trans_eq (Nat.mul_comm _ _)
  obtain ⟨words, hfill, -⟩ : Rewrites s.words (Word.Run.fill value start stop s.words) _ :=
    Word.Run.fill_spec value hstop'
  exact runs_changeWords hfill (Word.Run.fillChecked_eq (words_le_limit hlimit) value hstop')

/-- Runs within the capacity are within the words, wherever they overlap. -/
theorem runs_move {source destination count : Nat} (hsource : source + count ≤ s.capacity)
    (hdestination : destination + count ≤ s.capacity) :
    (changeWordsChecked fun words => Word.Run.moveChecked words source destination count).Runs
      (changeWords fun words => Word.Run.move words source destination count) (s, w) := by
  have hsource' : source + count ≤ Word.size * s.words.size := hsource.trans_eq (Nat.mul_comm _ _)
  have hdestination' : destination + count ≤ Word.size * s.words.size :=
    hdestination.trans_eq (Nat.mul_comm _ _)
  obtain ⟨words, hmove, -⟩ := Word.Run.move_spec hsource' hdestination'
  exact runs_changeWords hmove (Word.Run.moveChecked_eq (words_le_limit hlimit) hsource' hdestination')

/-- A run within the capacity is within the words. -/
theorem runs_reverse {start stop : Nat} (hstart : start ≤ stop) (hstop : stop ≤ s.capacity) :
    (changeWordsChecked (Word.Run.reverseChecked start stop)).Runs
      (changeWords (Word.Run.reverse start stop)) (s, w) := by
  have hstop' : stop ≤ Word.size * s.words.size := hstop.trans_eq (Nat.mul_comm _ _)
  obtain ⟨words, hreverse, -⟩ : Rewrites s.words (Word.Run.reverse start stop s.words) _ :=
    Word.Run.reverse_spec hstop'
  exact runs_changeWords hreverse (Word.Run.reverseChecked_eq (words_le_limit hlimit) hstart hstop')

end Words

section Access

variable (hs : Sound m (s, w))

include hs

/-- An index that passed the check is within the capacity. -/
theorem runs_get (index : Nat) : (getChecked index).Runs (get index) (s, w) := by
  refine runs_held (runs_ofExcept fun _ hcheck => runs_bit ?_)
  exact (lt_of_checkIndex_eq_ok hcheck).trans_le hs.len_le

/-- An index that passed the check is within the capacity. -/
theorem runs_set (index : Nat) (value : Bool) : (setChecked index value).Runs (set index value) (s, w) := by
  refine runs_held (runs_ofExcept fun _ hcheck => runs_changeBit ?_ _)
  exact (lt_of_checkIndex_eq_ok hcheck).trans_le hs.len_le

/-- As many words as before are there for every further change of a bit. -/
theorem runs_change (index : Nat) (changes : List BitChange) :
    (changeChecked index changes).Runs (change index changes) (s, w) := by
  refine runs_held (runs_ofExcept fun _ hcheck => ?_)
  have hindex : index < s.capacity := (lt_of_checkIndex_eq_ok hcheck).trans_le hs.len_le
  have hloose := hs.loose
  generalize s.capacity = capacity at hindex hloose
  generalize s.len = len at hloose
  generalize Word.Run.bitAt s.words = f at hloose
  clear hs hcheck
  induction changes generalizing f s w with
  | nil => exact runs_pure _ _
  | cons change rest ih =>
      rw [List.mapM_cons, List.mapM_cons]
      have hroom : index < s.capacity := hindex.trans_eq hloose.capacity_eq.symm
      refine (runs_changeBit hroom change).bind_of (changeBit_meets change hloose hindex) fun answer u hu => ?_
      exact runs_answered _ (ih _ hu.2)

end Access

/-! ### Storage -/

/-- The words that are copied are no more than the new ones. -/
theorem runs_allocateCopy (allocator : Allocator) {source : Array Word} {count : Nat}
    (hroom : source.size ≤ count) :
    (allocateCopyChecked allocator source count).Runs (allocateCopy allocator source count) w :=
  runs_require hroom (runs_ofAct _ _)

/-- A valid sequence has a block of the size that it gives back. -/
theorem runs_dispose (hs : s.Valid) : s.disposeChecked.Runs s.dispose w :=
  Region.runs_release hs.region Word.fits_shape _

/-- The region that is replaced has a block of the size that it gives back. -/
theorem runs_install (hs : s.region.Valid Word.shape) (block : Option Block) (words : Array Word) (len : Nat) :
    (installChecked block words len).Runs (install block words len) (s, w) :=
  runs_held (runs_hold (Region.runs_release hs Word.fits_shape _).inWorld)

/-- The words of the bits go into the new ones. -/
theorem runs_reallocate (hs : s.Valid) {count : Nat} (hroom : Word.wordsFor s.len ≤ count) :
    (reallocateChecked count).Runs (reallocate count) (s, w) := by
  refine runs_held (runs_inWorld ?_ fun r w' _ => runs_install hs.region r.1 r.2 s.len)
  refine runs_both hroom (runs_act fun _ w₁ _ => runs_value (asWordsChecked_eq hs) ?_)
  exact runs_allocateCopy _ ((size_asWords hs).trans_le hroom)

/-- The capacity in bits, and the words for the new one, can be counted. -/
theorem runs_reserve (h : Counted m (s, w)) (capacity : Nat) :
    (reserveChecked capacity).Runs (reserve capacity) (s, w) := by
  refine runs_held (runs_value h.capacityChecked_eq (runs_ite (fun _ => runs_pure _ _) fun hmore => ?_))
  refine runs_value s.maxSizeChecked_eq (runs_ofExcept fun _ _ => runs_reallocate h.sound.valid ?_)
  exact Word.wordsFor_mono (h.sound.len_le.trans (Nat.le_of_not_le hmore))

/-- A length that is admitted is computed without a wrap. -/
theorem runs_reserveMore (h : Counted m (s, w)) (additional : Nat) :
    (reserveMoreChecked additional).Runs (reserveMore additional) (s, w) := by
  refine runs_held (runs_ofExcept fun required hrequired => ?_)
  refine runs_value h.capacityChecked_eq (runs_ite (fun _ => runs_pure _ _) fun hmore => ?_)
  refine runs_value s.maxSizeChecked_eq (runs_ofExcept fun capacity hgrow => ?_)
  have hlen : s.len ≤ required := by
    rw [required_eq_ok hrequired]
    exact Nat.le_add_right _ _
  exact runs_reallocate h.sound.valid (Word.wordsFor_mono (hlen.trans (Capacity.grow_bounds hgrow).1))

/-- No fewer words are kept than the bits take. -/
theorem runs_shrink (hs : s.Valid) : shrinkChecked.Runs shrink (s, w) := by
  refine runs_held (runs_ite (fun _ => runs_pure _ _) fun _ => runs_ite (fun _ => ?_) fun _ => ?_)
  · exact runs_hold (Region.runs_release hs.region Word.fits_shape _).inWorld
  · exact runs_reallocate hs (Nat.le_refl _)

/-! ### New bit sequences -/

/-- What was begun can be disposed of, if it is valid. -/
theorem runs_build {handle : Handle} {work : Checked (BitSequence × World σ α) β} {work' : BitAct σ α β}
    (h : work.Runs work' (empty handle, w)) (hvalid : (work' (empty handle, w)).state.1.Valid) :
    (buildChecked handle work).Runs (build handle work') w := by
  refine h.owning fun _ u hu => ?_
  subst hu
  exact runs_dispose hvalid

/-- A new bit sequence only reserves. -/
theorem runs_withCapacity (capacity : Nat) (handle : Handle) (h : w.Owns m) :
    (withCapacityChecked capacity handle).Runs (withCapacity capacity handle) w := by
  have hempty := counted_empty handle h
  have hvalid := Outcome.meets_always.mp (sound_of_soundly (reserve_meets capacity hempty.sound))
  exact runs_answered _ (runs_build (runs_reserve hempty capacity) hvalid.valid)

/-- A copy has just the words that the bits take. -/
theorem runs_copy (hs : s.Valid) : s.copyChecked.Runs s.copy w :=
  runs_value (asWordsChecked_eq hs)
    (runs_answered _ (runs_allocateCopy _ (Nat.le_refl _)))

theorem runs_copyDemanded (hs : s.Valid) : s.copyDemandedChecked.Runs s.copyDemanded w := by
  have hcopy := runs_copy hs (w := w)
  unfold Runs copyDemandedChecked copyDemanded
  rw [hcopy]
  cases s.copy w <;> rfl

end BitSequence

end Growable
