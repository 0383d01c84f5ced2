import Growable.Proofs.BitSequence.Assignment
import Growable.Proofs.BitSequence.Demand
import Growable.Proofs.Handover

/-!
# How the contents of bit sequences change hands

* `install_passes` — exactly what happens when new words take the place of old ones;
* `moveFrom_moved` — what moving comes to;
* `copyFrom_copied` — what copying comes to;
* `copyFrom_done` — when copying is done for sure.
-/

namespace Growable.BitSequence

open Act

variable {σ α : Type} {s t : BitSequence} {w : World σ α} {m : Multiset (Asset α)}

/-- A bit sequence holds bits, none of which has code of its own. -/
def kind : Kind BitSequence Bool α where
  toStorage := storage
  items := bits
  elements _ := []

/-! ## Old contents -/

/-- The old words are returned; there is nothing to drop. -/
theorem install_passes (hs : s.region.Valid Word.shape) (block : Option Block) (words : Array Word)
    (len : Nat) (w : World σ α) :
    (install block words len (s, w)).Meets (.returns fun _ u => u.1 = { s with block, words, len } ∧
      w.Passes (s.region.returning Word.shape s.handle.allocator) w.code u.2) := by
  simp only [install, bind_meets, held_meets, hold_meets, inWorld_meets]
  apply (Region.release_passes hs Word.fits_shape s.handle.allocator w).of_returns
  exact fun _ _ hw' => ⟨rfl, hw'⟩

/-- The words stay where they are when bits are taken away, and nobody hears of it. -/
theorem truncate_stays (n : Nat) (s : BitSequence) (w : World σ α) :
    (truncate n (s, w)).Meets ⟨fun _ u => u.1.region = s.region ∧ u.1.handle = s.handle ∧ u.2 = w,
      fun _ _ => False, fun _ _ => True⟩ := by
  simp only [truncate, changeWords, setLen, bind_meets, held_meets, ite_meets, ofOption_meets, hold_meets,
    pure_meets, implies_true, and_true]
  exact ⟨trivial, fun _ words hwords => region_of_size (Word.Run.size_fill hwords)⟩

/-- A new block is asked for, and words are put into it. -/
theorem allocateCopy_passes {source : Array Word} {n : Nat} (allocator : Allocator)
    (hroom : source.size ≤ n) (w : World σ α) :
    (allocateCopy allocator source n w).Meets
      ⟨fun r w' => (0 < Word.shape.bytes * n → w.Grants allocator (Word.shape.bytes * n)) ∧
          (⟨r.2.size, r.1⟩ : Region) = .fresh Word.shape n w ∧
          w.Passes ((⟨r.2.size, r.1⟩ : Region).granting Word.shape allocator) w.code w',
        fun e w' => Region.bytes? Word.shape n = none ∨ 0 < Word.shape.bytes * n ∧
          ¬ w.Grants allocator (Word.shape.bytes * n) ∧ e = .allocationFailure ∧
          w.Passes [.declined allocator.place (Word.shape.bytes * n)] w.code w',
        fun _ _ => False⟩ := by
  simp only [allocateCopy, bind_meets, require_meets, pure_meets]
  refine ⟨fun _ => ?_, fun hfull => absurd hroom hfull⟩
  apply (Region.allocate_passes Word.shape allocator n w).imp
  · rintro r w' ⟨hgrants, rfl, hw'⟩
    have hsize : (source ++ Array.replicate (n - source.size) Word.zeros).size = n := by
      rw [Array.size_append, Array.size_replicate, Nat.add_sub_cancel' hroom]
    rw [hsize]
    exact ⟨hgrants, rfl, hw'⟩
  · exact fun _ _ => id
  · exact fun _ _ => id

/-- The words in use are not too many for a block of their own. -/
theorem Valid.bytes?_wordsFor (hs : s.Valid) : Region.bytes? Word.shape (Word.wordsFor s.len)
    = some (Word.shape.bytes * Word.wordsFor s.len) :=
  hs.region.bytes?_eq Word.fits_shape (Word.wordsFor_le.mpr hs.len_le)

/-! ## Moving -/

/-- The words change hands where blocks can pass. -/
theorem moveFrom_passes (E : Element σ α) (hs : s.Valid)
    (hpass : s.handle.isEquivalent t.handle = true) (w : World σ α) :
    (moveFrom ((s, t), w)).Meets (.returns fun _ u =>
      u.1.1.region = t.region ∧ u.1.1.handle = s.handle ∧ u.1.2 = empty t.handle ∧
        w.Passes (kind.disposal E s w.code) w.code u.2) := by
  simp only [moveFrom, bind_meets, held_meets, ite_meets, hold_meets, onFirst_meets]
  refine ⟨fun _ => ?_, fun hstay => absurd hpass hstay⟩
  apply (install_passes hs.region t.block t.words t.len w).of_returns
  rintro _ ⟨s', w'⟩ ⟨rfl, hw'⟩
  exact ⟨rfl, rfl, rfl, hw'⟩

/-- The words in use are copied where blocks cannot pass. -/
theorem moveFrom_carries (E : Element σ α) (hs : s.Valid) (ht : t.Valid)
    (hstay : s.handle.isEquivalent t.handle = false) (w : World σ α) :
    let bytes := Word.shape.bytes * Word.wordsFor t.len
    (moveFrom ((s, t), w)).Meets
      ⟨fun _ u => (0 < bytes → w.Grants s.handle.allocator bytes) ∧
          u.1.1.region = .fresh Word.shape (Word.wordsFor t.len) w ∧ u.1.1.handle = s.handle ∧
          u.1.2.region = t.region ∧ u.1.2.handle = t.handle ∧
          w.Passes (u.1.1.region.granting Word.shape s.handle.allocator ++
            kind.disposal E s w.code) w.code u.2,
        fun e u => 0 < bytes ∧ ¬ w.Grants s.handle.allocator bytes ∧ e = .allocationFailure ∧
          w.Passes [.declined s.handle.allocator.place bytes] w.code u.2,
        fun _ _ => True⟩ := by
  intro bytes
  simp only [moveFrom, bind_meets, held_meets, ite_meets, inWorld_meets, onFirst_meets, size_asWords ht]
  refine ⟨fun hpass => absurd hpass (ne_true_of_eq_false hstay), fun _ => ?_⟩
  apply (allocateCopy_passes s.handle.allocator (size_asWords ht).le w).imp
  · rintro ⟨block, words⟩ w₁ ⟨hgrants, hregion, hw₁⟩
    apply (install_passes hs.region block words t.len w₁).of_returns
    rintro _ ⟨s', w₂⟩ ⟨rfl, hw₂⟩
    rw [hw₁.code_eq] at hw₂
    apply onSecond_meets.mpr
    apply (truncate_stays 0 t w₂).imp
    · rintro _ ⟨t', w₃⟩ ⟨htregion, hthandle, rfl⟩
      exact ⟨hgrants, hregion, rfl, htregion, hthandle, hw₁.trans hw₂⟩
    · exact fun _ _ => False.elim
    · exact fun _ _ _ => trivial
  · rintro e w₁ (hnone | hdeclined)
    · rw [ht.bytes?_wordsFor] at hnone
      cases hnone
    · exact hdeclined
  · exact fun _ _ => False.elim

/-- Moving a bit sequence does what moving does for either kind of container. -/
theorem moveFrom_moved (E : Element σ α) (h : SoundPair m ((s, t), w)) :
    (moveFrom ((s, t), w)).Meets (.responding fun response u =>
      kind.Moved E s t w response u.1.1 u.1.2 u.2) := by
  have hs : s.Valid := h.first
  have ht : t.Valid := h.second
  have hslots : (kind (α := α)).slots t = Word.wordsFor t.len := congrArg Word.wordsFor (length_bits t)
  have hbytes : (kind (α := α)).bytes t = Word.shape.bytes * Word.wordsFor t.len :=
    congrArg (Word.shape.bytes * ·) hslots
  cases hcase : s.handle.isEquivalent t.handle with
  | true =>
      apply ((moveFrom_meets h).and (moveFrom_passes E hs hcase w)).imp
      · rintro _ ⟨⟨s', t'⟩, w'⟩ ⟨⟨_, hbits, hnone⟩, hregion, hhandle, rfl, hw'⟩
        exact .of_passed hcase ⟨rfl, hbits, hnone, hhandle, rfl, hw'⟩ hregion rfl rfl
      · exact fun _ _ hu => hu.2.elim
      · exact fun _ _ hu => hu.1.elim
  | false =>
      have hnot : ¬ s.handle.isEquivalent t.handle = true := ne_true_of_eq_false hcase
      apply ((moveFrom_meets h).and (moveFrom_carries E hs ht hcase w)).imp
      · rintro _ ⟨⟨s', t'⟩, w'⟩
          ⟨⟨_, hbits, hnone⟩, hgrants, hregion, hhandle, htregion, hthandle, hw'⟩
        rw [← hbytes] at hgrants
        rw [← hslots] at hregion
        exact .of_carried hnot hgrants ⟨rfl, hbits, hnone, hhandle, hthandle, hw'⟩ hregion htregion
      · rintro e ⟨⟨s', t'⟩, w'⟩ ⟨⟨_, _, hsame⟩, hpos, hdeclines, rfl, hw'⟩
        obtain ⟨rfl, rfl⟩ := Prod.mk.inj hsame
        rw [← hbytes] at hpos hdeclines hw'
        exact .of_declined hnot hpos hdeclines hw'
      · exact fun _ _ hu => hu.1.elim

/-! ## Copying -/

/-- The events by which new words take the place of the old ones. -/
theorem replacing_eq (allocator : Allocator) (s t : BitSequence) (region : Region) :
    (kind (α := α)).replacing allocator s t region
      = region.granting Word.shape allocator ++ s.region.returning Word.shape s.handle.allocator := by
  rw [Kind.replacing]
  exact congrArg (· ++ _) (List.append_nil _)

/-- New words with the old bits are granted before the old ones are returned. -/
theorem reallocate_passes (hs : s.Valid) {n : Nat} (hroom : Word.wordsFor s.len ≤ n) (w : World σ α) :
    (reallocate n (s, w)).Meets
      ⟨fun _ u => u.1.handle = s.handle ∧ u.1.region = .fresh Word.shape n w ∧
          w.Emits (.noted (.reallocatingWords s.words.size n) ::
            (u.1.region.granting Word.shape s.handle.allocator ++
              s.region.returning Word.shape s.handle.allocator)) u.2,
        fun _ _ => Region.bytes? Word.shape n = none ∨ 0 < Word.shape.bytes * n ∧
          ¬ w.Grants s.handle.allocator (Word.shape.bytes * n),
        fun _ _ => False⟩ := by
  let w₁ := w.after [.noted (.reallocatingWords s.words.size n)] w.code
  have hsize : s.asWords.size ≤ n := (size_asWords hs).trans_le hroom
  have hnoted : w.Emits [.noted (.reallocatingWords s.words.size n)] w₁ := (w.passes_after _ _).emits
  rw [reallocate, held_bind, require_eq_pure hroom, pure_bind, bind_meets, inWorld_meets, bind_meets,
    World.note_eq]
  apply (allocateCopy_passes s.handle.allocator hsize w₁).imp
  · rintro ⟨block, words⟩ w₂ ⟨_, hregion, hw₂⟩
    change (install block words s.len (s, w₂)).Meets _
    apply (install_passes hs.region block words s.len w₂).of_returns
    rintro _ ⟨s', w₃⟩ ⟨rfl, hw₃⟩
    exact ⟨rfl, hregion, hnoted.trans (hw₂.emits.trans hw₃.emits)⟩
  · exact fun _ _ he => he.imp_right fun hdeclined => ⟨hdeclined.1, hdeclined.2.1⟩
  · exact fun _ _ => id

/-- A copy makes one request, for the words that the bits take, and does nothing else. -/
theorem copy_passes (ht : t.Valid) (w : World σ α) :
    let bytes := Word.shape.bytes * Word.wordsFor t.len
    (t.copy w).Meets
      ⟨fun c w' => c.handle = t.handle ∧ c.region = .fresh Word.shape (Word.wordsFor t.len) w ∧
          w.Emits (c.region.granting Word.shape t.handle.allocator) w',
        fun _ _ => 0 < bytes ∧ ¬ w.Grants t.handle.allocator bytes, fun _ _ => False⟩ := by
  intro bytes
  simp only [copy, bind_meets, pure_meets, size_asWords ht]
  apply (allocateCopy_passes t.handle.allocator (size_asWords ht).le w).imp
  · exact fun _ _ hr => ⟨trivial, hr.2.1, hr.2.2.emits⟩
  · rintro e w' (hnone | hdeclined)
    · rw [ht.bytes?_wordsFor] at hnone
      cases hnone
    · exact ⟨hdeclined.1, hdeclined.2.1⟩
  · exact fun _ _ => id

/-- A complete copy takes the place of the contents. -/
theorem copyFrom_replaces (hs : s.Valid) (ht : t.Valid) (hforeign : s.handle.Foreign t.handle)
    (w : World σ α) :
    (copyFrom t (s, w)).Meets (.whenDone fun _ u => u.1.handle = t.handle ∧
      u.1.region = .fresh Word.shape (Word.wordsFor t.len) w ∧
        w.Emits (kind.replacing t.handle.allocator s t u.1.region) u.2) := by
  rw [copyFrom_foreign hforeign]
  apply whenDone_inWorld (copy_passes ht w)
  rintro copied w₁ ⟨hhandle, hregion, hw₁⟩
  simp only [bind_meets, hold_meets, inWorld_meets]
  apply (Region.release_passes hs.region Word.fits_shape s.handle.allocator w₁).whenDone
  exact fun _ w₂ hw₂ => ⟨hhandle, hregion, replacing_eq (α := α) _ s t _ ▸ hw₁.trans hw₂.emits⟩

/-- Where blocks can pass, or the handle does not come along, room is made first, and the words are written
then. -/
theorem copyFrom_own (hown : ¬ s.handle.Foreign t.handle) (w : World σ α) :
    copyFrom t (s, w) = (do
      reserve t.len
      writeWords t.asWords
      truncate t.len
      setLen t.len
      if t.handle.propagates then
        let s ← held
        hold { s with handle := t.handle } : BitAct σ α Unit) (s, w) := by
  rw [copyFrom, held_bind, Handle.comes_eq_false hown]
  rfl

/-- Once there is room, the words stay where they are, and nobody hears of what is written into them. -/
theorem copyFrom_writes {P : Region → World σ α → Prop} (hown : ¬ s.handle.Foreign t.handle)
    (h : (reserve t.len (s, w)).Meets
      (.whenDone fun _ u => u.1.handle = s.handle ∧ P u.1.region u.2))
    (hP : ∀ region w₁ w₂, P region w₁ → w₁.Evolves (fun _ => False) w₂ → P region w₂) :
    (copyFrom t (s, w)).Meets (.whenDone fun _ u =>
      (u.1.handle = if t.handle.propagates then t.handle else s.handle) ∧ P u.1.region u.2) := by
  rw [copyFrom_own hown]
  apply whenDone_bind h
  rintro _ ⟨s₁, w₁⟩ ⟨hhandle, hs₁⟩
  have hu : Under s.handle (· = s₁.region) (fun _ => False) w₁ (s₁, w₁) :=
    ⟨⟨hhandle, rfl⟩, .refl w₁⟩
  apply (keeps_writeWords _).bind_whenDone hu
  intro _ u hu
  apply (keeps_truncate _).bind_whenDone hu
  intro _ u hu
  apply (keeps_setLen _).bind_whenDone hu
  rintro _ ⟨s₂, w₂⟩ ⟨⟨hhandle', hregion⟩, hw₂⟩
  have hs₂ : P s₂.region w₂ := hregion ▸ hP _ w₁ w₂ hs₁ hw₂
  apply ite_meets.mpr
  refine ⟨fun hcomes => ⟨(if_pos hcomes).symm, hs₂⟩, fun hstays => ⟨?_, hs₂⟩⟩
  rw [if_neg hstays]
  exact hhandle'

/-- The words in which there is room are kept. -/
theorem copyFrom_kept (hown : ¬ s.handle.Foreign t.handle) (hroom : t.len ≤ s.capacity) (w : World σ α) :
    (copyFrom t (s, w)).Meets (.whenDone fun _ u =>
      (u.1.handle = if t.handle.propagates then t.handle else s.handle) ∧
        u.1.region = s.region ∧ w.Evolves (fun e => e.place? = none) u.2) := by
  apply copyFrom_writes (P := fun region w' => region = s.region ∧ w.Evolves (fun e => e.place? = none) w')
    hown
  · rw [reserve, held_bind, if_pos hroom]
    exact ⟨rfl, rfl, .refl w⟩
  · exact fun _ _ _ hw₁ hw₂ => ⟨hw₁.1, hw₁.2.trans (hw₂.mono fun _ => False.elim)⟩

/-- Where there is no room, new words are granted before the old ones are returned. -/
theorem copyFrom_grown (hs : s.Valid) (hown : ¬ s.handle.Foreign t.handle) (hfull : s.capacity < t.len)
    (w : World σ α) :
    (copyFrom t (s, w)).Meets (.whenDone fun _ u =>
      (u.1.handle = if t.handle.propagates then t.handle else s.handle) ∧
        u.1.region = .fresh Word.shape (Word.wordsFor t.len) w ∧ ∃ note : Note,
          w.Emits (.noted note :: kind.replacing s.handle.allocator s t u.1.region) u.2) := by
  have hwords : Word.wordsFor s.len ≤ Word.wordsFor t.len :=
    Word.wordsFor_mono (hs.len_le.trans (Nat.le_of_lt hfull))
  apply copyFrom_writes (P := fun region w' => region = .fresh Word.shape (Word.wordsFor t.len) w ∧
    ∃ note : Note, w.Emits (.noted note :: kind.replacing s.handle.allocator s t region) w') hown
  · rw [reserve, held_bind, if_neg (Nat.not_le.mpr hfull)]
    cases Capacity.check t.len s.maxSize with
    | error e => exact trivial
    | ok _ =>
        apply (reallocate_passes hs hwords w).whenDone
        intro _ u hu
        rw [replacing_eq]
        exact ⟨hu.1, hu.2.1, _, hu.2.2⟩
  · rintro _ w₁ w₂ ⟨hregion, note, hw₁⟩ hw₂
    exact ⟨hregion, note, hw₁.silent hw₂⟩

/-- Copying a bit sequence onto another does what copying does for either kind of container. -/
theorem copyFrom_copied (hs : Sound m (s, w)) (ht : t.Valid) :
    (copyFrom t (s, w)).Meets (.whenDone fun _ u => kind.Copied s t w u.1 u.2) := by
  have hcontents := copyFrom_meets ht hs
  have hlen : ((kind (α := α)).items t).length = t.len := length_bits t
  have hslots : (kind (α := α)).slots t = Word.wordsFor t.len := congrArg Word.wordsFor hlen
  by_cases hforeign : s.handle.Foreign t.handle
  · apply (hcontents.and (copyFrom_replaces hs.valid ht hforeign w)).whenDone
    rintro _ ⟨s', w'⟩ ⟨⟨_, hassigned⟩, hhandle, hregion, hw'⟩
    injection hassigned with _ hbits
    exact .of_foreign hforeign hbits.symm hhandle (hslots ▸ hregion) hw'
  · by_cases hroom : t.len ≤ s.capacity
    · apply (hcontents.and (copyFrom_kept hforeign hroom w)).whenDone
      rintro _ ⟨s', w'⟩ ⟨⟨_, hassigned⟩, hhandle, hregion, hw'⟩
      injection hassigned with _ hbits
      exact .of_kept hforeign (hlen.trans_le hroom) hbits.symm hhandle hregion
        (capacity_eq_of_region hregion) hw'
    · have hfull : s.capacity < t.len := Nat.lt_of_not_le hroom
      apply (hcontents.and (copyFrom_grown hs.valid hforeign hfull w)).whenDone
      rintro _ ⟨s', w'⟩ ⟨⟨_, hassigned⟩, hhandle, hregion, note, hw'⟩
      injection hassigned with _ hbits
      exact .of_grown hforeign (hfull.trans_eq hlen.symm) hbits.symm hhandle (hslots ▸ hregion) [note] hw'

/-! ## Copies that are done -/

/-- Copying is not refused where what it asks for is granted, and where the handle of `s` admits as many bits
as `t` has if that is the one that it asks by. -/
theorem copyFrom_granted (hs : s.Valid) (ht : t.Valid)
    (hgrants : ∀ bytes, w.Grants s.handle.allocator bytes)
    (hgrants' : ∀ bytes, w.Grants t.handle.allocator bytes)
    (hlimit : ¬ s.handle.Foreign t.handle → t.len ≤ s.capacity ∨ t.len ≤ s.maxSize) :
    (copyFrom t (s, w)).Meets (.refusing fun _ _ => False) := by
  by_cases hforeign : s.handle.Foreign t.handle
  · rw [copyFrom_foreign hforeign]
    apply refusing_bind
    · exact inWorld_meets.mpr ((copy_passes ht w).refusing fun _ _ hu => hu.2 (hgrants' _))
    · exact fun _ => (firm_hold _).bind fun _ => (Region.firm_release _ _ _).inWorld
  · have hreserved : (reserve t.len (s, w)).Meets (.refusing fun _ _ => False) := by
      by_cases hroom : t.len ≤ s.capacity
      · rw [reserve, held_bind, if_pos hroom]
        exact trivial
      · have hwords : Word.wordsFor s.len ≤ Word.wordsFor t.len :=
          Word.wordsFor_mono (hs.len_le.trans (Nat.le_of_not_le hroom))
        rw [reserve, held_bind, if_neg hroom,
          Capacity.check_of_le ((hlimit hforeign).resolve_left hroom)]
        apply (reallocate_passes hs hwords w).refusing
        rintro _ _ (hnone | ⟨_, hdeclines⟩)
        · cases ht.bytes?_wordsFor.symm.trans hnone
        · exact hdeclines (hgrants _)
    rw [copyFrom_own hforeign]
    apply refusing_bind hreserved
    intro _
    apply (firm_changeWords _).bind
    intro _
    apply (firm_truncate _).bind
    intro _
    apply (firm_setLen _).bind
    intro _
    exact (firm_held.bind fun _ => firm_hold _).ite (firm_pure _)

/-- It is done if the allocators grant what is asked for, and the handle admits it. -/
theorem copyFrom_done (hs : Sound m (s, w)) (ht : t.Valid)
    (hgrants : ∀ bytes, w.Grants s.handle.allocator bytes)
    (hgrants' : ∀ bytes, w.Grants t.handle.allocator bytes)
    (hlimit : ¬ s.handle.Foreign t.handle → t.len ≤ s.capacity ∨ t.len ≤ s.maxSize) :
    (copyFrom t (s, w)).Meets (.returns fun _ u => kind.Copied s t w u.1 u.2) := by
  have hcopied := copyFrom_copied hs ht
  have hgranted := copyFrom_granted hs.valid ht hgrants hgrants' hlimit
  apply ((copyFrom_meets ht hs).and (hcopied.and hgranted)).imp
  · exact fun _ _ hu => hu.2.1
  · exact fun _ _ hu => hu.2.2
  · rintro f u ⟨⟨_, hfaulted⟩, _⟩
    cases hfaulted

end Growable.BitSequence
