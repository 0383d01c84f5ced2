import Growable.Proofs.BitSequence.Assignment
import Growable.Proofs.BitSequence.Feed
import Growable.Proofs.Reading

/-!
# Reading bit sequences

Where nothing is declined, a bit is pushed just when the handle admits one more (`puts_push`), and room is
made ahead for as many bits as it admits (`reserveHinted_admits`).  So reading valid bits comes to these bits
if the handle admits as many, and is refused for lack of capacity otherwise (`reader_faithful`).
-/

namespace Growable.BitSequence

open Act Storage

variable {σ α β : Type} {s : BitSequence} {w w₀ : World σ α} {m : Multiset (Asset α)} {place : Nat}

/-! ## Nothing is declined -/

/-- A new block is installed without a request. -/
theorem granted_install (block : Option Block) (words : Array Word) (len : Nat) :
    Keeps (storage.Granted place w₀) (install block words len : BitAct σ α Unit) := by
  apply keeps_held_bind
  rintro s _ ⟨hs, -⟩
  exact (granted_hold (K := storage) (s := { s with block, words, len }) hs).bind fun _ =>
    granted_inWorld (Region.granting_release _ _ _)

/-- The request for a copy is not declined where nothing is. -/
theorem granting_allocateCopy (allocator : Allocator) (source : Array Word) (count : Nat) :
    Keeps (w₀.Granting allocator.place) (allocateCopy allocator source count) := by
  apply (keeps_require _ _).bind
  intro _
  exact (Region.granting_allocate _ _ _).bind fun _ => keeps_pure _

theorem granted_reallocate (count : Nat) :
    Keeps (storage.Granted place w₀) (reallocate count : BitAct σ α Unit) := by
  apply keeps_held_bind
  rintro s _ ⟨rfl, -⟩
  refine (granted_inWorld ?_).bind fun r => granted_install r.1 r.2 _
  apply (keeps_require _ _).bind
  intro _
  apply (World.granting_record (e := .noted _) nofun).bind
  exact fun _ => granting_allocateCopy s.handle.allocator s.asWords count

theorem granted_reserve (capacity : Nat) :
    Keeps (storage.Granted place w₀) (reserve capacity : BitAct σ α Unit) := by
  apply keeps_held_bind
  intro s _ _
  apply Keeps.ite (fun _ => keeps_pure _)
  intro _
  exact keeps_ofExcept_bind fun _ _ => granted_reallocate _

theorem granted_reserveMore (additional : Nat) :
    Keeps (storage.Granted place w₀) (reserveMore additional : BitAct σ α Unit) := by
  apply keeps_held_bind
  intro s _ _
  apply keeps_ofExcept_bind
  intro required _
  apply Keeps.ite (fun _ => keeps_pure _)
  intro _
  exact keeps_ofExcept_bind fun _ _ => granted_reallocate _

/-- What works on bits in place leaves the allocators alone. -/
theorem granted_of_keeps {act : BitAct σ α β}
    (hkeeps : ∀ (h : Handle) (w : World σ α), Keeps (fun u => u.1.handle = h ∧ u.2 = w) act) :
    Keeps (storage.Granted place w₀) act := by
  rintro ⟨s, w⟩ ⟨hs, hw⟩
  apply (hkeeps s.handle w (s, w) ⟨rfl, rfl⟩).always_imp
  rintro ⟨t, _⟩ ⟨ht, rfl⟩
  exact ⟨(congrArg (·.allocator.place) ht).trans hs, hw⟩

/-- A bit is changed without a request. -/
theorem granted_changeBit (index : Nat) (change : BitChange) :
    Keeps (storage.Granted place w₀) (changeBit index change : BitAct σ α (Option Bool)) := by
  apply granted_of_keeps
  intro h w
  apply keeps_held_bind
  rintro s _ ⟨hs, -⟩
  apply (keeps_ofOption _ _).bind
  exact fun _ => (Act.keeps_hold fun _ _ hu => ⟨hs, hu.2⟩).bind fun _ => keeps_pure _

/-- A length is declared without a request. -/
theorem granted_setLen (len : Nat) :
    Keeps (storage.Granted place w₀) (setLen len : BitAct σ α Unit) := by
  apply granted_of_keeps
  intro h w
  apply keeps_held_bind
  rintro s _ ⟨hs, -⟩
  exact Act.keeps_hold fun _ _ hu => ⟨hs, hu.2⟩

/-- What a push asks for is not declined. -/
theorem granted_push (value : Bool) :
    Keeps (storage.Granted place w₀) (push value : BitAct σ α Unit) := by
  have hstore : ∀ len : Nat, Keeps (storage.Granted place w₀) (do
      let _ ← changeBit len (.replace value)
      setLen (len + 1) : BitAct σ α Unit) :=
    fun len => (granted_changeBit len _).bind fun _ => granted_setLen _
  apply keeps_held_bind
  intro s _ _
  apply Keeps.ite
  · exact fun _ => (granted_reserveMore 1).bind fun _ => hstore s.len
  · exact fun _ => hstore s.len

/-! ## One by one -/

variable {handle : Handle}

/-- Bits are pushed as long as the handle admits one more. -/
theorem puts_push (m : Multiset (Asset α)) (handle : Handle) :
    storage.Puts bits (fun _ _ => False)
      (storage.Supplied (Fitting m : BitSequence × World σ α → Prop) handle) push where
  admits value s w hs hlt := by
    have hroom : s.len + 1 ≤ s.maxSize := by rwa [length_bits] at hlt
    have hfits : s.words.size ≤ s.maxWords := (Nat.mul_le_mul_right_iff (by decide)).mp hs.holds.fits
    have hdone := hs.admitted Word.lawful_shape hroom
      (push_answered hs.holds.sound.valid.len_le hs.holds.fits value) (granted_push value)
    have hkept := keeps_push (P := (·.capacity ≤ s.maxWords)) (Q := fun _ => True)
      (fun _ _ => trivial) s.handle.maxBytes_le (fun _ => id) value (s, w) ⟨⟨rfl, hfits⟩, .refl w⟩
    refine (((hdone.and (push_appends value hs.holds.sound)).and hkept).and
      (granted_push value _ hs.granted)).imp ?_ (fun _ _ hu => hu.1.1.1.elim) (fun _ _ hu => hu.1.1.2.2.elim)
    rintro _ ⟨t, w'⟩ ⟨⟨⟨-, ht, hbits⟩, hu⟩, -, hgranting⟩
    obtain ⟨hfitting, hmax⟩ := Fitting.of_under ht hu
    exact ⟨⟨hfitting, hu.1.1.trans hs.handle_eq, hgranting.generous_now⟩, hbits, hmax⟩
  exceeds value s w hs hle := by
    have hfull : s.maxSize ≤ s.len := by rwa [length_bits] at hle
    have hanswered := push_answered (w := w) hs.holds.sound.valid.len_le hs.holds.fits value
    have hexceeds := hanswered.exceeding rfl (Nat.lt_succ_of_le hfull)
    exact (hexceeds.and (push_appends value hs.holds.sound)).imp (fun _ _ => And.left)
      (fun e u hu => ⟨hu.1.1, hu.1.2.1⟩) (fun _ _ hu => hu.2.2.elim)

/-! ## Reading -/

/-- How bit sequences are read. -/
def reader : Reader σ α Bool BitSequence where
  storage := storage
  empty := empty
  contents := bits
  raises _ _ := False
  ahead := reserveHinted
  read := read

/-- A hint is a demand of as much room as is made ahead on it. -/
theorem reserveHinted_answered (hint : Option Nat) (handle : Handle) (w : World σ α) :
    Demand.Answered storage ⟨.ok (), (reader : Reader σ α _ _).room 65536 hint handle, false⟩ none (empty handle) w
      (reserveHinted hint (empty handle, w)) :=
  reserve_answered (Nat.zero_le _) (Nat.zero_le _) _

/-- No more room is made ahead than the handle admits. -/
theorem room_le (hint : Option Nat) (handle : Handle) :
    (reader : Reader σ α _ _).room 65536 hint handle ≤ (empty handle).maxSize :=
  (Nat.min_le_right _ _).trans (Nat.min_le_right _ _)

/-- What is asked for on a hint is not declined. -/
theorem granted_reserveHinted (hint : Option Nat) :
    Keeps (storage.Granted place w₀) (reserveHinted hint : BitAct σ α Unit) := by
  apply keeps_held_bind
  exact fun s _ _ => granted_reserve _

/-- What is read comes after what is done ahead. -/
theorem read_evolves (hint : Option Nat) (items : Feed (Option Bool)) (handle : Handle) :
    (read hint items handle w).Meets
      (.always ((reserveHinted hint (empty handle, w)).state.2.Evolves fun _ => True)) := by
  let J : BitSequence → Prop := fun s => s.handle = handle ∧ True
  have hall : ∀ e : Event α, e.Upkeep handle.allocator.place Size.blockLimit → True := fun _ _ => trivial
  have hfirst := keeps_reserveHinted (P := fun _ => True) hall handle.maxBytes_le
    (fun _ _ => trivial) hint (empty handle, w) ⟨⟨rfl, trivial⟩, .refl w⟩
  have hbuilt := World.owning_evolves (J := J) (Q := fun _ => True) (fun _ s => s.dispose)
    (hfirst.always_imp fun _ => And.left)
    (fun w₀ => keeps_pushValid (P := fun _ => True) hall handle.maxBytes_le (fun _ _ => trivial) items)
    (fun w₀ _ s hs => keeps_dispose hall hs.1)
  rw [read, build, bind_meets]
  refine hbuilt.imp ?_ (fun _ _ => id) (fun _ _ => id)
  rintro ⟨s, valid⟩ w' ⟨hs, hw'⟩
  cases valid with
  | true => exact hw'
  | false => exact ((keeps_dispose hall hs.1).bind fun _ => keeps_pure none) w' hw'

section Reading

variable (h : w.Owns m)

include h

/-- The work on a hint is not refused where nothing is declined. -/
theorem reserveHinted_admits (hint : Option Nat) (hgenerous : w.Generous handle.allocator.place) :
    (reserveHinted hint (empty handle, w)).Meets
      (.returns fun _ u => storage.Supplied (Fitting m) handle u ∧ u.1.bits = []) := by
  have hsound : Sound m (empty handle, w) := sound_empty handle h
  have hsupplied : storage.Supplied (Fitting m) handle (empty handle, w) :=
    ⟨⟨hsound, Nat.zero_le _⟩, rfl, hgenerous⟩
  have hadmitted := hsupplied.admitted Word.lawful_shape (room_le hint handle)
    (reserveHinted_answered hint handle w) (granted_reserveHinted hint)
  have hkept := keeps_reserveHinted (P := (·.capacity ≤ (empty handle).maxWords)) (Q := fun _ => True)
    (fun _ _ => trivial) handle.maxBytes_le (fun _ => id) hint (empty handle, w)
    ⟨⟨rfl, Nat.zero_le _⟩, .refl w⟩
  have hmet : (reserveHinted hint (empty handle, w)).Meets _ := reserve_meets _ hsound
  refine (((hadmitted.and hmet).and hkept).and (granted_reserveHinted hint _ hsupplied.granted)).imp ?_
    (fun _ _ hu => hu.1.1.1.elim) (fun _ _ hu => hu.1.1.2.2.elim)
  rintro _ ⟨t, w'⟩ ⟨⟨⟨-, ht, hsame, hlen, -⟩, hu⟩, -, hgranting⟩
  obtain ⟨hfitting, -⟩ := Fitting.of_under (s := empty handle) ht hu
  exact ⟨⟨hfitting, hu.1.1, hgranting.generous_now⟩,
    List.length_eq_zero_iff.mp ((length_bits t).trans hlen)⟩

/-- The room that is made ahead on a hint is asked for once. -/
theorem reserveHinted_asks (hint : Option Nat) (handle : Handle) :
    (reserveHinted hint (empty handle, w)).Meets
      ⟨fun _ u => w.Served handle.allocator.place ((reader : Reader σ α _ _).aheadBytes 65536 hint handle) u.2,
        fun e u => e = .allocationFailure ∧ 0 < (reader : Reader σ α _ _).aheadBytes 65536 hint handle ∧
          w.Rejected none
            [.declined handle.allocator.place ((reader : Reader σ α _ _).aheadBytes 65536 hint handle)] false u.2,
        fun _ _ => False⟩ := by
  have hasks := (reserveHinted_answered hint handle w).asks Word.lawful_shape rfl (room_le hint handle) rfl
  have hmet : (reserveHinted hint (empty handle, w)).Meets _ := reserve_meets _ (sound_empty handle h)
  exact (hasks.and hmet).imp (fun _ _ => And.left) (fun _ _ => And.left) (fun _ _ hu => hu.2.2.elim)

/-- What the handle admits is read. -/
theorem read_admits (hint : Option Nat) (xs : List Bool) (hgenerous : w.Generous handle.allocator.place)
    (hle : xs.length ≤ (empty handle).maxSize) :
    ∃ s w', read hint (.ofList (xs.map some) .finish) handle w = .done (some s) w' ∧ s.bits = xs ∧
      s.handle = handle := by
  have hread : (read hint (.ofList (xs.map some) .finish) handle w).Meets (.returns fun r _ => r ≠ none) := by
    rw [read, build, bind_meets, owning_meets, bind_meets]
    apply (reserveHinted_admits h hint hgenerous).of_returns
    rintro _ ⟨t, w'⟩ ⟨hs, hnone⟩
    have hmax : t.maxSize = (empty handle).maxSize := maxSize_of_handle hs.handle_eq
    apply ((puts_push m handle).admits_all xs hs _).of_returns
    · rintro valid u ⟨rfl, -, -⟩
      exact Option.some_ne_none u.1
    · change t.bits.length + xs.length ≤ t.maxSize
      rw [hnone, hmax]
      simpa using hle
  have hall : ∀ e : Event α, e.Upkeep handle.allocator.place Size.blockLimit → True := fun _ _ => trivial
  have hkept := yields_read (P := fun _ => True) hall handle.maxBytes_le (fun _ _ => trivial) hint
    (.ofList (xs.map some) .finish) w (.refl w)
  apply Reader.admits_of_meets (R := reader) hread
  apply ((read_meets hint (.ofList (xs.map some) .finish) handle h).and hkept).whenDone
  rintro r w' ⟨⟨hbits, -⟩, hs, -⟩
  exact ⟨hbits, fun s hsome => (hs s hsome).1⟩

/-- More than the handle admits is not read. -/
theorem read_exceeds (hint : Option Nat) (xs : List Bool) (last : Feed (Option Bool))
    (hgenerous : w.Generous handle.allocator.place) (hlt : (empty handle).maxSize < xs.length) :
    (read hint (.ofList (xs.map some) last) handle w).Meets
      ⟨fun _ _ => False, fun e _ => e = .capacityExceeded, fun _ _ => False⟩ := by
  have hwork : ((do reserveHinted hint; (Feed.ofList (xs.map some) last).pushValid push : BitAct σ α Bool)
      (empty handle, w)).Meets
      (soundly m ⟨fun _ _ => False, fun e _ => e = SequenceError.capacityExceeded, fun _ _ => False⟩) := by
    apply bind_of_returns (reserveHinted_admits h hint hgenerous)
    rintro _ ⟨t, w'⟩ ⟨hs, hnone⟩
    have hmax : t.maxSize = (empty handle).maxSize := maxSize_of_handle hs.handle_eq
    have hputs := (puts_push m handle).exceeds_all xs last hs (by
        change t.bits.length ≤ t.maxSize
        rw [hnone]
        exact Nat.zero_le _) (by
        change t.maxSize < t.bits.length + xs.length
        rw [hnone, hmax]
        simpa using hlt)
    refine ((pushValid_meets _ hs.holds.sound).and hputs).imp (fun _ _ hu => hu.2.elim)
      (fun _ _ hu => ⟨hu.1.1, hu.2.1⟩) ?_
    rintro f u ⟨-, -, x, -, hnever⟩
    exact hnever.elim
  rw [read, bind_meets]
  refine (build_meets handle hwork).imp (fun _ _ hu => hu.2.elim) ?_ ?_
  · rintro e w' ⟨-, t, he⟩
    exact he
  · rintro f w' ⟨-, t, hnever⟩
    exact hnever

/-- **Reading a bit sequence.** -/
theorem reader_faithful (handle : Handle) : reader.Faithful 65536 handle w where
  comes_to hint items := (read_meets hint items handle h).imp (fun _ _ hr => hr.1) (fun _ _ he => he.1)
    fun _ _ hf => .inl hf.2
  admits hgenerous hint xs hle := read_admits h hint xs hgenerous hle
  exceeds hgenerous hint xs last := fun hlt =>
    (read_exceeds h hint xs last hgenerous hlt).refused_or_faulted.imp_right
      fun ⟨_, _, _, hnever⟩ => hnever.elim
  asks hint items :=
    ⟨reserveHinted_asks h hint handle, (Outcome.meets_always.mp (read_evolves hint items handle)).isPrefix⟩
  failing hint items := by
    have hall : ∀ e : Event α, e.Upkeep handle.allocator.place Size.blockLimit → True := fun _ _ => trivial
    have hkept := yields_read (P := fun _ => True) hall handle.maxBytes_le (fun _ _ => trivial) hint
      items w (.refl w)
    refine ((read_meets hint items handle h).and hkept).imp ?_ ?_ ?_
    · rintro r w' ⟨⟨-, howns⟩, -, hw'⟩ rfl
      exact World.restored_of_owns h howns hw'
    · exact fun e w' hu => World.restored_of_owns h hu.1.2 hu.2
    · exact fun f w' hu => World.restored_of_owns h hu.1.1 hu.2

end Reading

end Growable.BitSequence
