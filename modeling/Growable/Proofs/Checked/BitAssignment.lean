import Growable.BitSequence.Cursor
import Growable.Proofs.BitSequence.Assignment
import Growable.Proofs.Checked.BitContent

/-!
# Assignment and reading of bits, checked

The operations that replace the contents of a bit sequence, those that read bits from items, and what can be
asked of a bit sequence, with all that they compute: the words of another sequence fit into the first words,
the number of set bits is a size, and a cursor stays within the words until its two ends meet.
-/

namespace Growable

open Checked

variable {σ α β : Type}

namespace BitSequence

/-- Replaces the contents by `count` copies of a bit. -/
def assignCopiesChecked (count : Nat) (value : Bool) : Checked (BitSequence × World σ α) Unit := do
  reserveChecked count
  changeWordsChecked (Word.Run.fillChecked value 0 count)
  truncateChecked count
  ofAct (setLen count)

/-- Replaces the contents by some bits. -/
def assignAllChecked (values : List Bool) : Checked (BitSequence × World σ α) Unit := do
  reserveChecked values.length
  writeChecked 0 0 values
  truncateChecked values.length
  ofAct (setLen values.length)

/-- A sequence of `count` copies of a bit. -/
def replicateChecked (count : Nat) (value : Bool) (handle : Handle) : Checked (World σ α) BitSequence := do
  let (s, _) ← buildChecked handle (assignCopiesChecked count value)
  return s

/-- A sequence of some bits. -/
def ofListChecked (values : List Bool) (handle : Handle) : Checked (World σ α) BitSequence := do
  let (s, _) ← buildChecked handle (assignAllChecked values)
  return s

/-- Replaces the contents by what an iterator yields. -/
def assignFeedChecked (feed : Feed Bool) : Checked (BitSequence × World σ α) Unit := do
  truncateChecked 0
  pushFeedChecked feed

/-- Overwrites the first words. -/
def writeWordsChecked (source : Array Word) : Checked (BitSequence × World σ α) Unit :=
  changeWordsChecked fun words => do
    guard (source.size ≤ words.size)
    return source ++ words.extract source.size words.size

/-- Replaces the contents by another bit sequence's, and the handle if that one propagates. -/
def copyFromChecked (other : BitSequence) : Checked (BitSequence × World σ α) Unit := do
  let s ← ofAct Act.held
  if other.handle.propagates && !s.handle.isEquivalent other.handle then
    let copied ← inWorld other.copyChecked
    ofAct (Act.hold copied)
    inWorld s.disposeChecked
  else
    reserveChecked other.len
    let source ← ofOption other.asWordsChecked
    writeWordsChecked source
    truncateChecked other.len
    ofAct (setLen other.len)
    if other.handle.propagates then
      let s ← ofAct Act.held
      ofAct (Act.hold { s with handle := other.handle })

/-- Moves the contents of the second bit sequence into the first, whose own words are released. -/
def moveFromChecked : Checked ((BitSequence × BitSequence) × World σ α) Unit := do
  let (s, other) ← ofAct Act.held
  if s.handle.isEquivalent other.handle then
    ofAct (Act.hold (s, { other with block := none, words := #[], len := 0 }))
    onFirst (installChecked other.block other.words other.len)
  else
    let source ← ofOption other.asWordsChecked
    let (block, words) ← inWorld (allocateCopyChecked s.handle.allocator source source.size)
    onFirst (installChecked block words other.len)
    onSecond (truncateChecked 0)

/-- Makes room ahead on a hint. -/
def reserveHintedChecked (hint : Option Nat) : Checked (BitSequence × World σ α) Unit := do
  let s ← ofAct Act.held
  let most ← ofOption s.maxSizeChecked
  reserveChecked (min (hint.getD 0) (min hintLimit most))

/-- Reads a bit sequence from items, or nothing if one of them is not valid. -/
def readChecked (hint : Option Nat) (items : Feed (Option Bool)) (handle : Handle) :
    Checked (World σ α) (Option BitSequence) := do
  let (s, valid) ← buildChecked handle do
    reserveHintedChecked hint
    pushValid pushChecked items
  if valid then
    return some s
  s.disposeChecked
  return none

/-! ## Nothing fails -/

variable {s other : BitSequence} {w : World σ α} {m : Multiset (Asset α)}

/-- The bits behind new contents are cleared, which are not known any more. -/
theorem Loose.runs_truncate {capacity len : Nat} {f : Nat → Bool} {u : BitSequence × World σ α}
    (hu : Loose m capacity len f u) (hlen : len ≤ capacity) (hlimit : capacity ≤ Size.limit) (n : Nat) :
    (truncateChecked n).Runs (truncate n) u := by
  obtain ⟨t, w'⟩ := u
  have hsame : t.capacity = capacity := hu.capacity_eq
  have hroom : t.len ≤ t.capacity := by
    rw [hsame, show t.len = len from hu.len_eq]
    exact hlen
  exact BitSequence.runs_truncate hroom (hsame.trans_le hlimit) n

/-- The bits are within the capacity that was reserved for them. -/
theorem runs_assignCopies (h : Counted m (s, w)) (count : Nat) (value : Bool) :
    (assignCopiesChecked count value).Runs (assignCopies count value) (s, w) := by
  refine (runs_reserve h count).bind_of (h.reserve_meets count) fun _ u hu => ?_
  obtain ⟨t, w'⟩ := u
  obtain ⟨hcounted, -, hroom⟩ := hu
  refine (runs_fill hcounted.capacity_le value 0 hroom).bind_of
    (fill_meets value 0 hcounted.sound.loose hroom) fun _ v hv => ?_
  exact (hv.runs_truncate hcounted.sound.len_le hcounted.capacity_le count).bind
    fun _ u _ => runs_ofAct _ u

/-- The bits are within the capacity that was reserved for them. -/
theorem runs_assignAll (h : Counted m (s, w)) (values : List Bool) :
    (assignAllChecked values).Runs (assignAll values) (s, w) := by
  refine (runs_reserve h values.length).bind_of (h.reserve_meets values.length) fun _ u hu => ?_
  obtain ⟨t, w'⟩ := u
  have hcounted : Counted m (t, w') := hu.1
  have hroom : 0 + values.length ≤ t.capacity := (Nat.zero_add _).trans_le hu.2.2
  refine (runs_write hcounted.sound.loose hcounted.capacity_le 0 0 values hroom).bind_of
    (write_meets 0 values hcounted.sound.loose hroom) fun _ v hv => ?_
  exact (hv.runs_truncate hcounted.sound.len_le hcounted.capacity_le values.length).bind
    fun _ u _ => runs_ofAct _ u

/-- A new bit sequence has room for the bits that it is filled with. -/
theorem runs_replicate (count : Nat) (value : Bool) (handle : Handle) (h : w.Owns m) :
    (replicateChecked count value handle).Runs (replicate count value handle) w := by
  have hempty := counted_empty handle h
  have hsound := Outcome.meets_always.mp (sound_of_soundly (assignCopies_meets count value hempty.sound))
  exact runs_answered _ (runs_build (runs_assignCopies hempty count value) hsound.valid)

/-- A new bit sequence has room for the bits that are written to it. -/
theorem runs_ofList (values : List Bool) (handle : Handle) (h : w.Owns m) :
    (ofListChecked values handle).Runs (ofList values handle) w := by
  have hempty := counted_empty handle h
  have hsound := Outcome.meets_always.mp (sound_of_soundly (assignAll_meets values hempty.sound))
  exact runs_answered _ (runs_build (runs_assignAll hempty values) hsound.valid)

/-- The next bit is counted up to the length, and then the bits are pushed. -/
theorem runs_assignFeed (h : Counted m (s, w)) (feed : Feed Bool) :
    (assignFeedChecked feed).Runs (assignFeed feed) (s, w) := by
  have hcleared : (truncate 0 (s, w)).Meets
      (soundly m ⟨fun _ _ => True, fun _ _ => True, fun _ _ => True⟩) :=
    (clear_meets h.sound).of_returns fun _ _ hu => ⟨hu.1, trivial⟩
  exact (h.runs_truncate 0).bind_of (h.meets hcleared (keeps_truncate 0))
    fun _ u hu => runs_pushFeed hu.1 feed

/-! ### Another bit sequence's contents -/

/-- The words that are copied are no more than there are. -/
theorem runs_writeWords {source : Array Word} (hsize : source.size ≤ s.words.size) :
    (writeWordsChecked source).Runs (writeWords source) (s, w) :=
  runs_changeWords (if_pos hsize) ((Word.guard_bind hsize _).trans (if_pos hsize).symm)

/-- The words of a valid sequence are as many as its bits take. -/
theorem runs_copyFrom (h : Counted m (s, w)) (hother : other.Valid) :
    (copyFromChecked other).Runs (copyFrom other) (s, w) := by
  refine runs_held (runs_ite (fun _ => ?_) fun _ => ?_)
  · refine runs_inWorld (runs_copy hother) fun copied w' _ => runs_hold ?_
    exact (runs_dispose h.sound.valid).inWorld
  · refine (runs_reserve h other.len).bind_of (h.reserve_meets other.len) fun _ u hu => ?_
    obtain ⟨t, w'⟩ := u
    have hcounted : Counted m (t, w') := hu.1
    have hroom : other.len ≤ t.capacity := hu.2.2
    have hsize : other.asWords.size ≤ t.words.size :=
      (size_asWords hother).trans_le (Word.wordsFor_le.mpr hroom)
    refine runs_value (asWordsChecked_eq hother) ((runs_writeWords hsize).bind_of
      (writeWords_meets hother hcounted.sound hroom) fun _ v hv => ?_)
    obtain ⟨g, hloose, -⟩ := hv
    refine (hloose.runs_truncate hcounted.sound.len_le hcounted.capacity_le other.len).bind fun _ u _ => ?_
    refine (runs_ofAct _ u).bind fun _ u _ => runs_ite (fun _ => ?_) fun _ => runs_pure _ u
    exact runs_held (runs_ofAct _ u)

/-- The words of a valid sequence are as many as its bits take. -/
theorem runs_moveFrom (hs : s.Valid) (hother : other.Valid) (hlimit : other.capacity ≤ Size.limit) :
    moveFromChecked.Runs moveFrom ((s, other), w) := by
  refine runs_held (runs_ite (fun _ => runs_hold ?_) fun _ => ?_)
  · exact (runs_install hs.region _ _ _).onFirst
  · refine runs_value (asWordsChecked_eq hother) ?_
    refine runs_inWorld (runs_allocateCopy _ (Nat.le_refl _)) fun r w' _ => ?_
    refine runs_onFirst (runs_install hs.region _ _ _) fun _ v _ => ?_
    exact (runs_truncate hother.len_le hlimit 0).onSecond

/-! ### Items that are read -/

/-- The maximum size in bits is computed without a wrap. -/
theorem runs_reserveHinted (h : Counted m (s, w)) (hint : Option Nat) :
    (reserveHintedChecked hint).Runs (reserveHinted hint) (s, w) :=
  runs_held (runs_value s.maxSizeChecked_eq (runs_reserve h _))

/-- Reading builds a new bit sequence, and disposes of it if an item is not valid. -/
theorem runs_read (hint : Option Nat) (items : Feed (Option Bool)) (handle : Handle) (h : w.Owns m) :
    (readChecked hint items handle).Runs (read hint items handle) w := by
  have hempty := counted_empty handle h
  have hreserved := hempty.reserve_meets (min (hint.getD 0) (min hintLimit (empty handle).maxSize))
  have hvalid : ((do reserveHinted hint; items.pushValid push : BitAct σ α Bool)
      (empty handle, w)).Meets (.always fun u => u.1.Valid) := by
    refine Act.bind_meets.mpr (hreserved.imp ?_ (fun _ _ hu => hu.sound.valid) (fun _ _ => False.elim))
    intro _ u hu
    exact (sound_of_soundly (pushValid_meets items hu.1.sound)).always_imp fun _ hv => hv.valid
  have hwork : (do reserveHintedChecked hint; pushValid pushChecked items :
      Checked (BitSequence × World σ α) Bool).Runs (do reserveHinted hint; items.pushValid push)
      (empty handle, w) :=
    (runs_reserveHinted hempty hint).bind_of hreserved fun _ u hu =>
      runs_pushValid (I := Counted m) (fun value v hv => runs_push hv value)
        (fun value v hv => (hv.push_meets value).imp (fun _ _ => id) (fun _ _ _ => trivial) fun _ _ _ => trivial)
        items hu.1
  refine (runs_build hwork (Outcome.meets_always.mp hvalid)).bind_of (Act.owning_meets_part hvalid)
    fun r w' hr => runs_ite (fun _ => runs_pure _ _) fun _ => ?_
  exact runs_answered _ (runs_dispose hr)

end BitSequence

end Growable
