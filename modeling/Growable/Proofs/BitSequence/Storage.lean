import Growable.BitSequence.Storage
import Growable.Proofs.Custody.Primitive
import Growable.Proofs.Word.Run

/-!
# Bit sequences as lists of bits, and their storage

A bit sequence is `Valid` when its words can be released and hold its bits, and all bits past its length
are clear; it is `Sound` in a world when, moreover, its words are in custody there.  In the middle of an
operation it may only be `Held`: then nothing is said of its bits.

What an operation does is said of the single bits of the words first; `bits_eq_splice` reads this as an
equation between lists.

* `reserve_meets`, `reserveMore_meets`, `shrink_meets` — the bits stay;
* `dispose_meets`, `copy_meets`, `build_meets` — bit sequences that come and go.
-/

namespace Growable

open Word.Run (bitAt)

variable {σ α β : Type}

/-- A word fits into a block. -/
theorem Word.fits_shape : Word.shape.Fits := by
  unfold Shape.Fits
  decide

namespace BitSequence

/-! ## Bits -/

/-- There are as many bits as the length says. -/
@[simp] theorem length_bits (s : BitSequence) : s.bits.length = s.len := by
  simp [bits]

/-- The bits are those of the words, up to the length. -/
theorem getElem?_bits {s : BitSequence} {i : Nat} (h : i < s.len) :
    s.bits[i]? = some (bitAt s.words i) := by
  rw [bits, List.getElem?_map, List.getElem?_range h]
  rfl

/-- The bits are known by the length and by each of them. -/
theorem bits_eq_of {s : BitSequence} {xs : List Bool} (hlen : s.len = xs.length)
    (h : ∀ i < s.len, xs[i]? = some (bitAt s.words i)) : s.bits = xs := by
  refine List.ext_getElem? fun i => ?_
  by_cases hi : i < s.len
  · rw [getElem?_bits hi, h i hi]
  · rw [List.getElem?_eq_none (by rw [length_bits]; omega), List.getElem?_eq_none (by omega)]

/-- Bits before `p` that stay, then the bits `ys`, then the bits from `q` on. -/
theorem bits_eq_splice {s t : BitSequence} {p q : Nat} {ys : List Bool} (hp : p ≤ s.len)
    (hlen : t.len = p + ys.length + (s.len - q))
    (hfront : ∀ i < p, bitAt t.words i = bitAt s.words i)
    (hmiddle : ∀ i < ys.length, ys[i]? = some (bitAt t.words (p + i)))
    (hback : ∀ i, q ≤ i → i < s.len →
      bitAt t.words (p + ys.length + (i - q)) = bitAt s.words i) :
    t.bits = s.bits.take p ++ ys ++ s.bits.drop q := by
  have htake : (s.bits.take p).length = p := by simp [hp]
  refine bits_eq_of (by simp [hp, hlen, Nat.add_assoc]) fun i hi => ?_
  by_cases hfirst : i < p
  · rw [List.append_assoc, List.getElem?_append_left (by omega), List.getElem?_take,
      if_pos hfirst, getElem?_bits (by omega), hfront i hfirst]
  · by_cases hsecond : i < p + ys.length
    · rw [List.getElem?_append_left (by rw [List.length_append]; omega),
        List.getElem?_append_right (by omega), htake, hmiddle _ (by omega)]
      congr 2
      omega
    · rw [List.getElem?_append_right (by rw [List.length_append]; omega), List.getElem?_drop,
        List.length_append, htake, getElem?_bits (by omega), ← hback _ (by omega) (by omega)]
      congr 2
      omega

/-- The first bits are those of a shorter sequence with the same words. -/
theorem bits_take {s : BitSequence} {n : Nat} (h : n ≤ s.len) :
    ({ s with len := n } : BitSequence).bits = s.bits.take n := by
  rw [bits, bits, ← List.map_take, List.take_range, Nat.min_eq_left h]

/-- Words that agree up to the length have the same bits. -/
theorem bits_eq_of_same {s t : BitSequence} (hlen : t.len = s.len)
    (h : ∀ i < s.len, bitAt t.words i = bitAt s.words i) : t.bits = s.bits := by
  refine bits_eq_of (by rw [hlen, length_bits]) fun i hi => ?_
  rw [getElem?_bits (by omega), h i (by omega)]

/-! ## Soundness -/

/-- The words of a bit sequence as assets. -/
def assets (s : BitSequence) : Multiset (Asset α) := s.region.assets Word.shape

/-- The words can be released and hold the bits, and all bits past the length are clear. -/
structure Valid (s : BitSequence) : Prop where
  region : s.region.Valid Word.shape
  len_le : s.len ≤ s.capacity
  clear : ∀ i, s.len ≤ i → bitAt s.words i = false

/-- The words can be released and are in custody, beside the assets `m`. -/
structure Held (m : Multiset (Asset α)) (u : BitSequence × World σ α) : Prop where
  region : u.1.region.Valid Word.shape
  owns : u.2.Owns (u.1.assets + m)

/-- A valid bit sequence whose words are in custody, beside the assets `m`. -/
structure Sound (m : Multiset (Asset α)) (u : BitSequence × World σ α) : Prop where
  valid : u.1.Valid
  owns : u.2.Owns (u.1.assets + m)

/-- The claim that the bit sequence is sound in the end, beside what is claimed of it. -/
def soundly (m : Multiset (Asset α)) (post : Post BitSequence β) :
    Post (BitSequence × World σ α) β :=
  ⟨fun b u => Sound m u ∧ post.done b u.1, fun e u => Sound m u ∧ post.refused e u.1,
    fun f u => Sound m u ∧ post.faulted f u.1⟩

/-- A bit sequence without any words is valid. -/
theorem valid_empty (handle : Handle) : (empty handle).Valid :=
  ⟨Region.valid_empty _, Nat.zero_le _,
    fun i _ => Word.Run.bitAt_of_ge (Nat.zero_le i)⟩

@[simp] theorem assets_empty (handle : Handle) :
    ((empty handle).assets : Multiset (Asset α)) = 0 := rfl

variable {s : BitSequence} {w : World σ α} {m : Multiset (Asset α)}

/-- A new bit sequence has nothing in custody yet. -/
theorem sound_empty (handle : Handle) (h : w.Owns m) : Sound m (empty handle, w) :=
  ⟨valid_empty handle, h.of_eq (by rw [assets_empty, zero_add])⟩

/-- What is claimed of the bit sequence may be weakened. -/
theorem soundly_imp {o : Outcome (BitSequence × World σ α) β} {post post' : Post BitSequence β}
    (h : o.Meets (soundly m post)) (hdone : ∀ b t, post.done b t → post'.done b t)
    (hrefused : ∀ e t, post.refused e t → post'.refused e t)
    (hfaulted : ∀ f t, post.faulted f t → post'.faulted f t) : o.Meets (soundly m post') :=
  h.imp (fun b u hu => ⟨hu.1, hdone b u.1 hu.2⟩) (fun e u hu => ⟨hu.1, hrefused e u.1 hu.2⟩)
    (fun f u hu => ⟨hu.1, hfaulted f u.1 hu.2⟩)

/-- What is done soundly ends in a sound sequence, however it ends. -/
theorem sound_of_soundly {o : Outcome (BitSequence × World σ α) β} {post : Post BitSequence β}
    (h : o.Meets (soundly m post)) : o.Meets (.always (Sound m)) :=
  h.imp (fun _ _ hu => hu.1) (fun _ _ hu => hu.1) (fun _ _ hu => hu.1)

theorem Sound.len_le (hs : Sound m (s, w)) : s.len ≤ s.capacity := hs.valid.len_le

/-- Behind the length, all bits are clear. -/
theorem Sound.clear (hs : Sound m (s, w)) {i : Nat} (hi : s.len ≤ i) : bitAt s.words i = false :=
  hs.valid.clear i hi

theorem Sound.held (hs : Sound m (s, w)) : Held m (s, w) := ⟨hs.valid.region, hs.owns⟩

/-- As many other words in the same block, and another length. -/
theorem Held.change (hs : Held m (s, w)) {words : Array Word} (hsize : words.size = s.words.size)
    (len : Nat) : Held m ({ s with words, len }, w) := by
  have hregion : ({ s with words, len } : BitSequence).region = s.region := by
    rw [BitSequence.region, BitSequence.region, hsize]
  refine ⟨by rw [hregion]; exact hs.region, hs.owns.of_eq ?_⟩
  rw [assets, assets, hregion]

/-- A sequence whose block is in custody is sound if its length and its padding are in order. -/
theorem Held.sound (hs : Held m (s, w)) (hlen : s.len ≤ s.capacity)
    (hclear : ∀ i, s.len ≤ i → bitAt s.words i = false) : Sound m (s, w) :=
  ⟨⟨hs.region, hlen, hclear⟩, hs.owns⟩

/-! ## The words in use -/

/-- Exactly the words that the bits take are copied. -/
theorem size_asWords (hs : s.Valid) : s.asWords.size = Word.wordsFor s.len := by
  have hle : Word.wordsFor s.len ≤ s.words.size := Word.wordsFor_le.mpr hs.len_le
  rw [asWords, Array.size_extract]
  omega

/-- The words in use have the same bits as all words. -/
theorem bitAt_asWords (hs : s.Valid) (i : Nat) : bitAt s.asWords i = bitAt s.words i := by
  by_cases hi : i < Word.size * s.asWords.size
  · have hlt : i / Word.size < s.asWords.size := Nat.div_lt_of_lt_mul hi
    rw [asWords, Array.size_extract] at hlt
    simp only [Word.Run.bitAt, Word.Run.bit?, Word.split, asWords, Array.getElem?_extract]
    rw [if_pos hlt, Nat.zero_add]
  · rw [Word.Run.bitAt_of_ge (Nat.le_of_not_lt hi)]
    have hle := Word.le_wordsFor s.len
    rw [size_asWords hs, Nat.mul_comm] at hi
    exact (hs.clear i (by omega)).symm

/-- Words without set bits change nothing. -/
theorem bitAt_append_zeros (words : Array Word) (n i : Nat) :
    bitAt (words ++ Array.replicate n Word.zeros) i = bitAt words i := by
  simp only [Word.Run.bitAt, Word.Run.bit?, Word.split, Array.getElem?_append]
  by_cases hi : i / Word.size < words.size
  · rw [if_pos hi]
  · rw [if_neg hi, Array.getElem?_eq_none (Nat.le_of_not_lt hi), Array.getElem?_replicate]
    split <;> simp [Word.isSet_eq, Word.zeros]

/-! ## Storage -/

/-- The block goes back and nothing else. -/
theorem release_meets (hs : s.region.Valid Word.shape) (allocator : Allocator) :
    (s.region.release Word.shape allocator w).Meets
      (.returns fun _ w' => w.Becomes s.assets w' 0) :=
  (Region.release_meets hs allocator w).imp (fun _ _ => id) (fun _ _ => id)
    (fun _ _ hf => hf.2.1 Word.fits_shape)

/-- Nothing of a bit sequence is left in custody when it is disposed of. -/
theorem dispose_meets (hs : s.Valid) (h : w.Owns (s.assets + m)) :
    (s.dispose w).Meets (.returns fun _ w' => w'.Owns m) :=
  (release_meets hs.region s.handle.allocator).of_returns
    fun _ _ hgone => (hgone m h).of_eq (zero_add m)

/-- The words of a new block can take the place of the old ones. -/
theorem install_meets {block : Option Block} {words : Array Word} {len : Nat}
    (hs : s.region.Valid Word.shape) (hregion : (⟨words.size, block⟩ : Region).Valid Word.shape)
    (h : w.Owns ((⟨words.size, block⟩ : Region).assets Word.shape + (s.assets + m))) :
    (install block words len (s, w)).Meets
      (.returns fun _ u => Held m u ∧ u.1 = { s with block, words, len }) := by
  simp only [install, Act.bind_meets, Act.held_meets, Act.hold_meets, Act.inWorld_meets]
  apply (release_meets hs s.handle.allocator).of_returns
  intro _ w' hgone
  refine ⟨⟨hregion, ?_⟩, rfl⟩
  have := hgone ((⟨words.size, block⟩ : Region).assets Word.shape + m) (h.of_eq (by abel))
  exact this.of_eq (zero_add _)

/-- New words begin with the given ones, and are clear behind them. -/
theorem allocateCopy_meets (allocator : Allocator) {source : Array Word} {count : Nat}
    (hroom : source.size ≤ count) (w : World σ α) :
    (allocateCopy allocator source count w).Meets
      ⟨fun r w' => r.2.size = count ∧ (∀ i, bitAt r.2 i = bitAt source i) ∧
          (⟨count, r.1⟩ : Region).Valid Word.shape ∧
          w.Becomes 0 w' ((⟨count, r.1⟩ : Region).assets Word.shape),
        fun e w' => e.IsLack ∧ w.Becomes 0 w' 0, fun _ _ => False⟩ := by
  simp only [allocateCopy, Act.bind_meets, Act.require_meets, Act.pure_meets]
  refine ⟨fun _ => ?_, fun hfull => absurd hroom hfull⟩
  refine (Region.allocate_meets Word.shape allocator count w).imp ?_ (fun _ _ => id)
    (fun _ _ => id)
  intro region w' hr
  obtain ⟨hregion, rfl, hgranted⟩ := hr
  refine ⟨?_, fun i => bitAt_append_zeros _ _ i, hregion, hgranted⟩
  rw [Array.size_append, Array.size_replicate, Nat.add_sub_cancel' hroom]

/-- The claim that a bit sequence has the bits of `s` and a capacity that satisfies `room`; if it was
refused, it is `s`. -/
def resized (s : BitSequence) (room : Nat → Prop) : Post BitSequence Unit :=
  ⟨fun _ t => (∀ i, bitAt t.words i = bitAt s.words i) ∧ t.len = s.len ∧ t.handle = s.handle ∧
      room t.capacity,
    fun e t => e.IsLack ∧ t = s, fun _ _ => False⟩

/-- The bits are the same in the new words, and the old block is gone. -/
theorem reallocate_meets {count : Nat} (hs : Sound m (s, w)) (hcount : Word.wordsFor s.len ≤ count) :
    (reallocate count (s, w)).Meets (soundly m (resized s (· = count * Word.size))) := by
  simp only [reallocate, Act.bind_meets, Act.held_meets, Act.require_meets, Act.inWorld_meets]
  refine ⟨fun _ => ?_, fun hfull => absurd hcount hfull⟩
  apply (World.note_meets _ hs.owns).of_returns
  intro _ w₁ h₁
  refine (allocateCopy_meets s.handle.allocator ((size_asWords hs.valid).trans_le hcount) w₁).imp
    ?_ ?_ (fun _ _ => False.elim)
  · intro r w₂ hr
    obtain ⟨block, words⟩ := r
    obtain ⟨rfl, hbits, hregion, hgranted⟩ := hr
    have hsame : ∀ i, bitAt words i = bitAt s.words i :=
      fun i => (hbits i).trans (bitAt_asWords hs.valid i)
    have howns := hgranted _ (h₁.of_eq (zero_add _).symm)
    apply (install_meets hs.valid.region hregion howns).of_returns
    intro _ u hu
    obtain ⟨t, w₃⟩ := u
    obtain ⟨hheld, ht⟩ := hu
    dsimp only at ht
    subst ht
    refine ⟨hheld.sound (Word.wordsFor_le.mp hcount) fun i hi => ?_, hsame, rfl, rfl, rfl⟩
    exact (hsame i).trans (hs.valid.clear i hi)
  · intro e w₂ hrefused
    have howns := hrefused.2 _ (h₁.of_eq (zero_add _).symm)
    exact ⟨⟨hs.valid, howns.of_eq (zero_add _)⟩, hrefused.1, rfl⟩

/-- Afterwards there is room for as many bits, and the bits are the same. -/
theorem reserve_meets (capacity : Nat) (hs : Sound m (s, w)) :
    (reserve capacity (s, w)).Meets (soundly m (resized s (capacity ≤ ·))) := by
  simp only [reserve, Act.bind_meets, Act.held_meets, Act.ite_meets, Act.pure_meets,
    Act.ofExcept_meets]
  refine ⟨fun hle => ⟨hs, fun _ => rfl, rfl, rfl, hle⟩, fun hmore => ⟨fun _ _ => ?_, ?_⟩⟩
  · have hlen : s.len ≤ s.capacity := hs.valid.len_le
    have hwords : Word.wordsFor s.len ≤ Word.wordsFor capacity :=
      Word.wordsFor_le.mpr (Nat.le_trans (by omega) (Word.le_wordsFor capacity))
    refine soundly_imp (reallocate_meets hs hwords) ?_ (fun _ _ => id) (fun _ _ => id)
    intro _ t ht
    exact ⟨ht.1, ht.2.1, ht.2.2.1, ht.2.2.2 ▸ Word.le_wordsFor capacity⟩
  · exact fun e he => ⟨hs, Capacity.eq_of_check_eq_error he ▸ trivial, rfl⟩

/-- A length that can be computed is the sum. -/
theorem required_eq_ok {additional n : Nat} (h : s.required additional = .ok n) :
    n = s.len + additional := by
  unfold required at h
  split at h
  · rename_i k hk
    cases h
    exact (Size.add?_eq_some_iff.mp hk).1.symm
  · cases h

/-- A length that cannot be computed is beyond the maximum size. -/
theorem required_eq_error {additional : Nat} {e : SequenceError}
    (h : s.required additional = .error e) : e = .capacityExceeded := by
  unfold required at h
  split at h
  · cases h
  · cases h
    rfl

/-- Afterwards there is room for as many bits more, and the bits are the same. -/
theorem reserveMore_meets (additional : Nat) (hs : Sound m (s, w)) :
    (reserveMore additional (s, w)).Meets (soundly m (resized s (s.len + additional ≤ ·))) := by
  simp only [reserveMore, Act.bind_meets, Act.held_meets, Act.ite_meets, Act.pure_meets,
    Act.ofExcept_meets]
  refine ⟨fun n hn => ?_, fun e he => ⟨hs, required_eq_error he ▸ trivial, rfl⟩⟩
  have hlen := required_eq_ok hn
  refine ⟨fun hle => ⟨hs, fun _ => rfl, rfl, rfl, hlen ▸ hle⟩, fun _ =>
    ⟨fun capacity hgrow => ?_, fun e he => ?_⟩⟩
  · have hle := (Capacity.grow_bounds hgrow).1
    have hroom := Word.le_wordsFor capacity
    have hwords : Word.wordsFor s.len ≤ Word.wordsFor capacity :=
      Word.wordsFor_le.mpr (by omega)
    refine soundly_imp (reallocate_meets hs hwords) ?_ (fun _ _ => id) (fun _ _ => id)
    intro _ t ht
    exact ⟨ht.1, ht.2.1, ht.2.2.1, ht.2.2.2 ▸ hlen ▸ Nat.le_trans hle hroom⟩
  · exact ⟨hs, Capacity.eq_of_grow_eq_error he ▸ trivial, rfl⟩

/-- Afterwards there are no more words than the bits take. -/
theorem shrink_meets (hs : Sound m (s, w)) :
    (shrink (s, w)).Meets
      (soundly m (resized s (· = Word.wordsFor s.len * Word.size))) := by
  simp only [shrink, Act.bind_meets, Act.held_meets, Act.ite_meets, Act.pure_meets,
    Act.hold_meets, Act.inWorld_meets]
  refine ⟨fun hfull => ⟨hs, fun _ => rfl, rfl, rfl, hfull ▸ rfl⟩,
    fun _ => ⟨fun hzero => ?_, fun _ => reallocate_meets hs (Nat.le_refl _)⟩⟩
  have hlen : s.len = 0 := by
    have hle := Word.le_wordsFor s.len
    rw [hzero, Nat.zero_mul] at hle
    exact Nat.le_zero.mp hle
  have hnone : ∀ i, bitAt #[] i = false := fun i => Word.Run.bitAt_of_ge (Nat.zero_le i)
  apply (release_meets hs.valid.region s.handle.allocator).of_returns
  intro _ w' hgone
  have howns := (hgone m hs.owns).of_eq (zero_add m)
  refine ⟨⟨⟨Region.valid_empty _, hlen.le, fun i _ => hnone i⟩, ?_⟩, fun i => ?_, rfl, rfl, ?_⟩
  · exact howns.of_eq (zero_add m).symm
  · exact (hnone i).trans (hs.valid.clear i (hlen.trans_le (Nat.zero_le i))).symm
  · rw [hzero, Nat.zero_mul]
    rfl

/-! ## New bit sequences -/

/-- The claim that a sound bit sequence is made that satisfies `Q`, or nothing of it is left. -/
def created (m : Multiset (Asset α)) (Q : BitSequence → Prop) (G : Fault → Prop) :
    Post (World σ α) BitSequence :=
  ⟨fun s w' => Sound m (s, w') ∧ Q s, fun e w' => e.IsLack ∧ w'.Owns m, fun f w' => w'.Owns m ∧ G f⟩

/-- A bit sequence that is given up after an operation on it leaves nothing. -/
theorem build_meets {work : BitAct σ α β} {post : Post BitSequence β} (handle : Handle)
    (hwork : (work (empty handle, w)).Meets (soundly m post)) :
    (build handle work w).Meets
      ⟨fun r w' => Sound m (r.1, w') ∧ post.done r.2 r.1, fun e w' => w'.Owns m ∧ ∃ t, post.refused e t,
        fun f w' => w'.Owns m ∧ ∃ t, post.faulted f t⟩ := by
  rw [build, Act.owning_meets]
  refine hwork.imp (fun _ _ => id) ?_ ?_
  · intro e u hu
    exact (dispose_meets hu.1.valid hu.1.owns).of_returns fun _ w' h' => ⟨h', u.1, hu.2⟩
  · intro f u hu
    exact (dispose_meets hu.1.valid hu.1.owns).of_returns fun _ w' h' => ⟨h', u.1, hu.2⟩

/-- A new bit sequence without bits, but with room. -/
theorem withCapacity_meets (capacity : Nat) (handle : Handle) (h : w.Owns m) :
    (withCapacity capacity handle w).Meets
      (created m (fun s => s.bits = [] ∧ s.handle = handle ∧ capacity ≤ s.capacity)
        fun _ => False) := by
  simp only [withCapacity, Act.bind_meets, Act.pure_meets]
  apply (build_meets handle (reserve_meets capacity (sound_empty handle h))).imp
  · intro r w' hr
    obtain ⟨hs, hsame, hlen, hhandle, hroom⟩ := hr
    exact ⟨hs, bits_eq_of_same hlen fun i _ => hsame i, hhandle, hroom⟩
  · intro e w' he
    obtain ⟨h', _, hlack, _⟩ := he
    exact ⟨hlack, h'⟩
  · intro f w' hf
    obtain ⟨_, _, hnever⟩ := hf
    exact hnever.elim

/-- A copy has the same bits, the same handle, and just the words that it needs. -/
theorem copy_meets (hs : s.Valid) (h : w.Owns m) :
    (s.copy w).Meets (created m (fun t => t.bits = s.bits ∧ t.handle = s.handle ∧
      t.words.size = Word.wordsFor s.len) fun _ => False) := by
  simp only [copy, Act.bind_meets, Act.pure_meets]
  refine (allocateCopy_meets s.handle.allocator (Nat.le_refl s.asWords.size) w).imp ?_ ?_
    (fun _ _ => False.elim)
  · intro r w' hr
    obtain ⟨block, words⟩ := r
    obtain ⟨hsize, hbits, hregion, hgranted⟩ := hr
    dsimp only at hsize
    rw [← hsize] at hregion hgranted
    have hsame : ∀ i, bitAt words i = bitAt s.words i :=
      fun i => (hbits i).trans (bitAt_asWords hs i)
    have hwords : words.size = Word.wordsFor s.len := hsize.trans (size_asWords hs)
    refine ⟨⟨⟨hregion, ?_, fun i hi => ?_⟩, ?_⟩, ?_, rfl, hwords⟩
    · exact Word.wordsFor_le.mp hwords.ge
    · exact (hsame i).trans (hs.clear i hi)
    · exact hgranted m (h.of_eq (zero_add m).symm)
    · exact bits_eq_of_same rfl fun i _ => hsame i
  · exact fun e w' he => ⟨he.1, (he.2 m (h.of_eq (zero_add m).symm)).of_eq (zero_add m)⟩

/-- A copy that is taken for granted faults where the copy would be refused. -/
theorem copyDemanded_meets (hs : s.Valid) (h : w.Owns m) :
    (s.copyDemanded w).Meets (created m (fun t => t.bits = s.bits ∧ t.handle = s.handle ∧
      t.words.size = Word.wordsFor s.len) fun f => ∃ e, e.IsLack ∧ f = .copyRefused e) := by
  have hcopy := copy_meets hs h
  unfold copyDemanded
  cases houtcome : s.copy w with
  | done t w' =>
      rw [houtcome] at hcopy
      exact hcopy
  | refused e w' =>
      rw [houtcome] at hcopy
      exact ⟨hcopy.2, e, hcopy.1, rfl⟩
  | faulted f w' =>
      rw [houtcome] at hcopy
      exact hcopy.2.elim

end BitSequence

end Growable
