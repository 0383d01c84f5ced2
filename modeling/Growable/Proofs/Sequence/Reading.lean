import Growable.Proofs.Reading
import Growable.Proofs.Sequence.Feed
import Growable.Proofs.Sequence.Transfer

/-!
# Reading sequences

Where nothing is declined, an element is pushed just when the handle admits one more (`puts_push`), and room
is made ahead for as many elements as it admits (`reserveHinted_admits`).  So reading a sequence of valid
elements comes to these elements if the handle admits as many, and is refused for lack of capacity otherwise
(`reader_faithful`).
-/

namespace Growable.Sequence

open Act Storage

variable {σ α β : Type} {E : Element σ α} {s : Sequence α} {w w₀ : World σ α} {m : Multiset (Asset α)}
  {place : Nat}

/-! ## Nothing is declined -/

/-- A new block goes in place and the old one back with nothing declined. -/
theorem granted_install (region : Region) (items : List α) :
    Keeps ((storage E).Granted place w₀) (install E region items) := by
  apply keeps_held_bind
  rintro s _ ⟨hs, -⟩
  exact (granted_hold (K := storage E) (s := { s with region, items }) hs).bind fun _ =>
    granted_inWorld (Region.granting_release _ _ _)

/-- Where the allocator grants, a reallocation has nothing declined. -/
theorem granted_reallocate (capacity : Nat) :
    Keeps ((storage E).Granted place w₀) (reallocate E capacity) := by
  apply keeps_held_bind
  rintro s _ ⟨rfl, -⟩
  apply (keeps_require _ _).bind
  intro _
  refine (granted_inWorld ?_).bind fun r => granted_install r.1 r.2
  apply (World.granting_record (e := .noted _) nofun).bind
  intro _
  apply (Staging.granting_allocate E s.handle.allocator capacity).bind
  intro staging
  exact (staging.granting_moveAfter s.items).bind fun staging => staging.granting_adopt

theorem granted_reserve (capacity : Nat) : Keeps ((storage E).Granted place w₀) (reserve E capacity) := by
  apply keeps_held_bind
  intro s _ _
  apply Keeps.ite (fun _ => keeps_pure _)
  intro _
  exact keeps_ofExcept_bind fun _ _ => granted_reallocate capacity

theorem granted_pushBy {make : Act (World σ α) α} (hmake : Keeps (w₀.Granting place) make) :
    Keeps ((storage E).Granted place w₀) (pushBy E make) := by
  apply keeps_held_bind
  rintro s _ ⟨rfl, -⟩
  apply Keeps.ite
  · intro _
    apply keeps_held_bind
    rintro t _ ⟨hplace, -⟩
    apply keeps_ofExcept_bind
    intro required _
    apply keeps_ofExcept_bind
    intro capacity _
    refine (granted_inWorld ?_).bind fun r => granted_install r.1 r.2
    apply (World.granting_record (e := .noted _) nofun).bind
    intro _
    have hallocate : Keeps (w₀.Granting t.handle.allocator.place)
        (Staging.allocate E t.handle.allocator capacity) := Staging.granting_allocate E _ capacity
    apply (hplace ▸ hallocate).bind
    intro staging
    apply (staging.granting_seek t.len).bind
    intro staging
    apply (staging.granting_append E hmake).bind
    intro staging
    exact (staging.granting_moveBefore t.items).bind fun staging => staging.granting_adopt
  · intro _
    apply (granted_inWorld hmake).bind
    intro x
    apply keeps_held_bind
    rintro t _ ⟨ht, -⟩
    exact (keeps_require _ _).bind fun _ => granted_hold (K := storage E) (s := { t with items := t.items ++ [x] }) ht

theorem granted_push (x : α) : Keeps ((storage E).Granted place w₀) (push E x) := by
  apply (granted_inWorld (World.granting_record (e := .received x) nofun)).bind
  intro _
  exact (granted_pushBy (keeps_pure x)).onRefusal (granted_inWorld (E.granting_drop false x))

/-! ## One by one -/

variable {handle : Handle}

/-- An element that the handle admits is pushed. -/
theorem push_admitted (hs : (storage E).Supplied (Fitting E m) handle (s, w)) (hshape : E.toShape.Lawful) (x : α)
    (hlt : s.len < s.maxSize E) :
    (push E x (s, w)).Meets ⟨fun _ _ => True, fun _ _ => False, fun _ _ => False⟩ := by
  have htaken : w.Granting handle.allocator.place (w.taking x) :=
    World.granting_record (e := .received x) nofun w hs.generous
  have hs₁ : (storage E).Supplied (Fitting E ({.element x} + m)) handle (s, w.taking x) :=
    ⟨⟨⟨hs.holds.sound.valid, (World.receive_meets x hs.holds.sound.owns).of_eq
      (add_left_comm _ _ _)⟩, hs.holds.fits⟩, hs.handle_eq, htaken.generous_now⟩
  have hadmitted := hs₁.admitted hshape hlt
    (pushBy_answered hs.holds.sound.valid.len_le hs.holds.fits (aside_pure x))
    (granted_pushBy (keeps_pure x))
  have hpushed := pushBy_meets hs₁.holds.sound (produces_pure x)
  simp only [push, bind_meets, inWorld_meets, onRefusal_meets]
  refine (hadmitted.and hpushed).imp (fun _ _ _ => trivial) (fun _ _ hu => hu.1.elim) ?_
  rintro f u ⟨-, -, -, hf⟩
  obtain ⟨_, _, _, _, hnever, _⟩ := hf hshape.fits
  exact hnever

/-- Elements are pushed as long as the handle admits one more. -/
theorem puts_push (hshape : E.toShape.Lawful) (m : Multiset (Asset α)) (handle : Handle) :
    (storage E).Puts items (fun x => CanRaise (E.onDrop x)) ((storage E).Supplied (Fitting E m) handle) (push E) where
  admits x s w hs hlt := by
    have hdone := push_admitted hs hshape x hlt
    refine (((hdone.and (push_meets x hs.holds.sound)).and (hs.holds.push x)).and
      (granted_push x _ hs.granted)).imp ?_ (fun _ _ hu => hu.1.1.1.elim) (fun _ _ hu => hu.1.1.1.elim)
    rintro _ u ⟨⟨⟨-, -, hhandle, hitems⟩, ⟨hfitting, -, hmax⟩, -⟩, -, hgranting⟩
    exact ⟨⟨hfitting, hhandle.trans hs.handle_eq, hgranting.generous_now⟩, hitems, hmax⟩
  exceeds x s w hs hle := by
    have hanswered := push_answered (w := w) hs.holds.sound.valid.len_le hs.holds.fits x
    have hexceeds := hanswered.exceeding rfl (Nat.lt_succ_of_le hle)
    refine (hexceeds.and (push_meets x hs.holds.sound)).imp (fun _ _ => And.left) ?_ ?_
    · exact fun e u hu => ⟨hu.1.1, hu.1.2.1⟩
    · exact fun f u hu => ⟨hu.1.1, (hu.2.2.2 hshape.fits).1⟩

/-! ## Reading -/

/-- How sequences are read. -/
def reader (E : Element σ α) : Reader σ α α (Sequence α) where
  storage := storage E
  empty := empty
  contents := items
  raises x := CanRaise (E.onDrop x)
  ahead := reserveHinted E
  read := read E

section Reading

variable (hshape : E.toShape.Lawful) (h : w.Owns m)

/-- A hint demands the room that the reader makes for it, at most 4096 elements. -/
theorem reserveHinted_answered (hint : Option Nat) (handle : Handle) (w : World σ α) :
    Demand.Answered (storage E) ⟨.ok (), (reader E).room 4096 hint handle, false⟩ none (empty handle) w
      (reserveHinted E hint (empty handle, w)) := by
  rw [reserveHinted, held_bind]
  cases hint with
  | none => exact Demand.answered_of_settled (Nat.zero_le _) (Nat.min_le_left 0 _) ⟨rfl, .refl w⟩
  | some n => exact reserve_answered (Nat.zero_le _) (Nat.zero_le _) _

/-- The room for a hint is within the limit of the handle. -/
theorem room_le (hint : Option Nat) (handle : Handle) :
    (reader E).room 4096 hint handle ≤ (empty handle : Sequence α).maxSize E :=
  (Nat.min_le_right _ _).trans (Nat.min_le_right _ _)

/-- The reservation for a hint has nothing declined either. -/
theorem granted_reserveHinted (hint : Option Nat) :
    Keeps ((storage E).Granted place w₀) (reserveHinted E hint) := by
  apply keeps_held_bind
  intro s _ _
  cases hint with
  | none => exact keeps_pure _
  | some n => exact granted_reserve _

/-- What is read comes after what is done ahead. -/
theorem read_evolves (hint : Option Nat) (items : Feed (Option α)) (handle : Handle) :
    (read E hint items handle w).Meets
      (.always ((reserveHinted E hint (empty handle, w)).state.2.Evolves fun _ => True)) := by
  let J : Sequence α → Prop := fun s => s.handle = handle ∧ True
  have hall : ∀ e : Event α, e.Upkeep handle.allocator.place Size.blockLimit → True := fun _ _ => trivial
  have hfirst := keeps_reserveHinted (E := E) (P := fun _ => True) hall handle.maxBytes_le
    (fun _ _ => trivial) hint (empty handle, w) ⟨⟨rfl, trivial⟩, .refl w⟩
  have hbuilt := World.owning_evolves (J := J) (Q := fun _ => True)
    (fun unwinding s => s.dispose E unwinding) (hfirst.always_imp fun _ => And.left)
    (fun w₀ => keeps_pushValid (E := E) (P := fun _ => True) hall handle.maxBytes_le (fun _ _ => trivial) items)
    (fun w₀ unwinding s hs => keeps_dispose hall unwinding hs.1)
  rw [read, build, bind_meets]
  refine hbuilt.imp ?_ (fun _ _ => id) (fun _ _ => id)
  rintro ⟨s, valid⟩ w' ⟨hs, hw'⟩
  cases valid with
  | true => exact hw'
  | false => exact ((keeps_dispose (E := E) hall false hs.1).bind fun _ => keeps_pure none) w' hw'

include hshape h

/-- The work on a hint is not refused where nothing is declined. -/
theorem reserveHinted_admits (hint : Option Nat) (hgenerous : w.Generous handle.allocator.place) :
    (reserveHinted E hint (empty handle, w)).Meets
      (.returns fun _ u => (storage E).Supplied (Fitting E m) handle u ∧ u.1.items = []) := by
  have hsupplied : (storage E).Supplied (Fitting E m) handle (empty handle, w) :=
    ⟨⟨sound_empty handle h, Nat.zero_le _⟩, rfl, hgenerous⟩
  have hadmitted := hsupplied.admitted hshape (room_le hint handle) (reserveHinted_answered hint handle w)
    (granted_reserveHinted hint)
  have hkept := keeps_reserveHinted (P := (·.capacity ≤ handle.maxSize E.bytes)) (Q := fun _ => True)
    (fun _ _ => trivial) handle.maxBytes_le (fun _ => id) hint (empty handle, w)
    ⟨⟨rfl, Nat.zero_le _⟩, .refl w⟩
  have hmet := reserveHinted_meets hint (sound_empty (E := E) handle h)
  refine (((hadmitted.and hmet).and hkept).and (granted_reserveHinted hint _ hsupplied.granted)).imp ?_
    (fun _ _ hu => hu.1.1.1.elim) (fun _ _ hu => (hu.1.1.2.2.2 hshape.fits).elim)
  rintro _ ⟨t, w'⟩ ⟨⟨⟨-, hsound, hitems, -, -⟩, ⟨hhandle, hroom⟩, -⟩, -, hgranting⟩
  have hmax : t.maxSize E = handle.maxSize E.bytes := congrArg (Handle.maxSize · E.bytes) hhandle
  exact ⟨⟨⟨hsound, hroom.trans_eq hmax.symm⟩, hhandle, hgranting.generous_now⟩, hitems⟩

/-- The room that is made ahead on a hint is asked for once. -/
theorem reserveHinted_asks (hint : Option Nat) (handle : Handle) :
    (reserveHinted E hint (empty handle, w)).Meets
      ⟨fun _ u => w.Served handle.allocator.place ((reader E).aheadBytes 4096 hint handle) u.2,
        fun e u => e = .allocationFailure ∧ 0 < (reader E).aheadBytes 4096 hint handle ∧
          w.Rejected none [.declined handle.allocator.place ((reader E).aheadBytes 4096 hint handle)] false u.2,
        fun _ _ => False⟩ := by
  have hasks := (reserveHinted_answered hint handle w).asks hshape rfl (room_le hint handle) rfl
  have hmet := reserveHinted_meets hint (sound_empty (E := E) handle h)
  exact (hasks.and hmet).imp (fun _ _ => And.left) (fun _ _ => And.left)
    (fun _ _ hu => (hu.2.2.2 hshape.fits).elim)

/-- What the handle admits is read. -/
theorem read_admits (hint : Option Nat) (xs : List α) (hgenerous : w.Generous handle.allocator.place)
    (hle : xs.length ≤ (empty handle : Sequence α).maxSize E) :
    ∃ s w', read E hint (.ofList (xs.map some) .finish) handle w = .done (some s) w' ∧ s.items = xs ∧
      s.handle = handle := by
  have hread : (read E hint (.ofList (xs.map some) .finish) handle w).Meets (.returns fun r _ => r ≠ none) := by
    rw [read, build, bind_meets, owning_meets, bind_meets]
    apply (reserveHinted_admits hshape h hint hgenerous).of_returns
    rintro _ ⟨t, w'⟩ ⟨hs, hnone⟩
    have hmax : t.maxSize E = (empty handle).maxSize E := congrArg (Handle.maxSize · E.bytes) hs.handle_eq
    apply ((puts_push hshape m handle).admits_all xs hs _).of_returns
    · rintro valid u ⟨rfl, -, -⟩
      exact Option.some_ne_none u.1
    · change t.items.length + xs.length ≤ t.maxSize E
      rw [hnone, hmax]
      simpa using hle
  apply Reader.admits_of_meets (R := reader E) hread
  apply (read_meets (E := E) hint (.ofList (xs.map some) .finish) handle h).whenDone
  rintro r w' ⟨hitems, hslot⟩
  refine ⟨hitems, ?_⟩
  rintro s rfl
  exact hslot.2

/-- More than the handle admits is not read. -/
theorem read_exceeds (hint : Option Nat) (xs : List α) (last : Feed (Option α))
    (hgenerous : w.Generous handle.allocator.place) :
    let most := (empty handle : Sequence α).maxSize E
    most < xs.length → (read E hint (.ofList (xs.map some) last) handle w).Meets
      ⟨fun _ _ => False, fun e _ => e = .capacityExceeded,
        fun f _ => (∃ x, xs[most]? = some x ∧ CanRaise (E.onDrop x) f) ∨
          ∃ x ∈ xs.take most, CanRaise (E.onDrop x) f⟩ := by
  intro most hlt
  have hwork : ((do reserveHinted E hint; (Feed.ofList (xs.map some) last).pushValid (push E))
      (empty handle, w)).Meets
      (soundly E m ⟨fun _ _ => False, fun e t => e = SequenceError.capacityExceeded ∧ t.items = xs.take most,
        fun f _ => ∃ x, xs[most]? = some x ∧ CanRaise (E.onDrop x) f⟩) := by
    apply bind_of_returns (reserveHinted_admits hshape h hint hgenerous)
    rintro _ ⟨t, w'⟩ ⟨hs, hnone⟩
    have hnone : t.items = [] := hnone
    have hmax : t.maxSize E = most := congrArg (Handle.maxSize · E.bytes) hs.handle_eq
    have hputs := (puts_push hshape m handle).exceeds_all xs last hs (by
        change t.items.length ≤ t.maxSize E
        rw [hnone]
        exact Nat.zero_le _) (by
        change t.maxSize E < t.items.length + xs.length
        rw [hnone, hmax]
        simpa using hlt)
    have hleft : (storage E).maxSize t - ([] : List α).length = most := hmax
    simp only [hnone, hleft, List.nil_append] at hputs
    refine ((pushValid_meets _ hs.holds.sound).and hputs).imp (fun _ _ hu => hu.2.elim) ?_ ?_
    · rintro e u ⟨⟨hsound, -⟩, he, hitems⟩
      exact ⟨hsound, he, hitems⟩
    · rintro f u ⟨⟨hsanctioned, hsound, -⟩, -, hraises⟩
      exact ⟨hsanctioned, hsound, fun _ => hraises⟩
  rw [read, bind_meets]
  refine (build_meets handle hwork).imp (fun _ _ hu => hu.2.elim) ?_ ?_
  · rintro e w' ⟨-, t, he, -⟩
    exact he
  · rintro f w' ⟨-, -, hf⟩
    rcases hf hshape.fits with ⟨t, hraises⟩ | ⟨t, ⟨e, -, hitems⟩, hraises⟩
    · exact .inl hraises
    · exact .inr (hitems ▸ hraises)

/-- **Reading a sequence.** -/
theorem reader_faithful (handle : Handle) : (reader E).Faithful 4096 handle w where
  comes_to hint items := (read_meets hint items handle h).imp (fun _ _ hr => hr.1) (fun _ _ he => he.1)
    fun _ _ hf => hf.2.2 hshape.fits
  admits hgenerous hint xs hle := read_admits hshape h hint xs hgenerous hle
  exceeds hgenerous hint xs last := fun hlt =>
    (read_exceeds hshape h hint xs last hgenerous hlt).refused_or_faulted
  asks hint items :=
    ⟨reserveHinted_asks hshape h hint handle, (Outcome.meets_always.mp
      (read_evolves hint items handle)).isPrefix⟩
  failing hint items := by
    have hall : ∀ e : Event α, e.Upkeep handle.allocator.place Size.blockLimit → True := fun _ _ => trivial
    have hkept := yields_read (E := E) (P := fun _ => True) hall handle.maxBytes_le (fun _ _ => trivial) hint
      items w (.refl w)
    refine ((read_meets hint items handle h).and hkept).imp ?_ ?_ ?_
    · rintro r w' ⟨⟨-, howns⟩, -, hw'⟩ rfl
      exact World.restored_of_owns h howns hw'
    · exact fun e w' hu => World.restored_of_owns h hu.1.2 hu.2
    · exact fun f w' hu => World.restored_of_owns h hu.1.2.1 hu.2

end Reading

end Growable.Sequence
