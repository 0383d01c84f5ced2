import Growable.Allocator
import Growable.Proofs.Invariant
import Growable.Source
import Growable.Staging

/-!
# How a world evolves

The trace of a world only ever grows.  `World.Evolves Q` relates a world to a later one when all events
that came in between satisfy `Q`, and the blocks that were granted in between are named in order, without
a gap and without a name used twice.  The relation is reflexive and transitive, so that "evolved from
`w₀`" is an invariant of every act; each primitive of the storage keeps it for the `Q` that its own events
satisfy.

Events are told apart by what they have to do with allocators.

* `Event.Chore` — what the storage does for its own sake without one: it notes, takes over, drops and hands
  out elements;
* `Event.Upkeep place most` — chores, and dealings with the allocator at one place: requests of at least one
  byte and at most `most`, and blocks that go back;
* `Event.Local place most` — dealings with that allocator, and all events that involve no allocator at all,
  those of element code among them;
* `Event.Sized limit` — any event, as long as a request is of at least one byte and within the limit, where
  `limit place` is the most bytes that may be asked at once of the allocator at a place.

An act that leaves nothing but events of one of these kinds keeps "evolved from `w₀` by `Q`" for every `Q`
that holds of this kind (`Region.yields_allocate`, `Region.keeps_release`, `Element.keeps_dropAll`, ...).
-/

namespace Growable

open Act

variable {σ α β : Type}

namespace Event

/-- The blocks that are granted with an event, with their bytes. -/
def grants : Event α → List (Block × Nat)
  | granted _ block bytes => [(block, bytes)]
  | _ => []

/-- The blocks that are returned with an event, with their bytes. -/
def returns : Event α → List (Block × Nat)
  | returned _ block bytes => [(block, bytes)]
  | _ => []

/-- The place of the allocator that is asked with an event, and the bytes that it is asked for, whether it
grants them or not. -/
def request? : Event α → Option (Nat × Nat)
  | granted place _ bytes => some (place, bytes)
  | declined place bytes => some (place, bytes)
  | _ => none

/-- An allocator is asked for at least one byte and at most as many as its limit, if it is asked. -/
def Sized (limit : Nat → Nat) (e : Event α) : Prop :=
  ∀ place bytes, e.request? = some (place, bytes) → 0 < bytes ∧ bytes ≤ limit place

/-- The place of the allocator that an event involves, if it involves one. -/
def place? : Event α → Option Nat
  | granted place _ _ => some place
  | declined place _ => some place
  | returned place _ _ => some place
  | _ => none

/-- What the storage does by itself, without an allocator, and without any code that makes an element. -/
inductive Chore : Event α → Prop
  | noted {note : Note} : Chore (noted note)
  | dropped {x : α} {faulted : Bool} : Chore (dropped x faulted)
  | received {x : α} : Chore (received x)
  | handed {x : α} : Chore (handed x)

/-- What passes between the storage and the allocator at a place, of which at most `most` bytes are asked
at once. -/
inductive Dealing (place most : Nat) : Event α → Prop
  | granted {block bytes : Nat} (hpos : 0 < bytes) (hle : bytes ≤ most) :
      Dealing place most (granted place block bytes)
  | declined {bytes : Nat} (hpos : 0 < bytes) (hle : bytes ≤ most) :
      Dealing place most (declined place bytes)
  | returned {block bytes : Nat} : Dealing place most (returned place block bytes)

/-- What the storage does by itself, with the allocator at a place. -/
def Upkeep (place most : Nat) (e : Event α) : Prop := e.Chore ∨ e.Dealing place most

/-- What comes of work on contents whose block is with the allocator at a place. -/
def Local (place most : Nat) (e : Event α) : Prop := e.place? = none ∨ e.Dealing place most

variable {place most : Nat} {Q : Event α → Prop}

/-- A chore names no allocator. -/
theorem place?_of_chore {e : Event α} (h : e.Chore) : e.place? = none := by
  cases h <;> rfl

/-- A dealing names its allocator. -/
theorem place?_of_dealing {e : Event α} (h : e.Dealing place most) : e.place? = some place := by
  cases h <;> rfl

/-- Only an event with a place is a request. -/
theorem request?_of_unasked {e : Event α} (h : e.place? = none) : e.request? = none := by
  cases e <;> first | rfl | cases h

/-! A property that holds of a kind of events holds of the kinds within it. -/

/-- What allows for upkeep allows for chores. -/
theorem chore_of_upkeep (hQ : ∀ e : Event α, e.Upkeep place most → Q e) : ∀ e : Event α, e.Chore → Q e :=
  fun e he => hQ e (.inl he)

/-- What allows for unplaced events allows for chores. -/
theorem chore_of_unasked (hQ : ∀ e : Event α, e.place? = none → Q e) : ∀ e : Event α, e.Chore → Q e :=
  fun e he => hQ e (place?_of_chore he)

/-- What allows for local events allows for unplaced ones. -/
theorem unasked_of_local (hQ : ∀ e : Event α, e.Local place most → Q e) :
    ∀ e : Event α, e.place? = none → Q e :=
  fun e he => hQ e (.inl he)

/-- What allows for local events allows for upkeep. -/
theorem upkeep_of_local (hQ : ∀ e : Event α, e.Local place most → Q e) :
    ∀ e : Event α, e.Upkeep place most → Q e :=
  fun e he => hQ e (he.imp_left place?_of_chore)

/-- What allows for local events allows for chores. -/
theorem chore_of_local (hQ : ∀ e : Event α, e.Local place most → Q e) : ∀ e : Event α, e.Chore → Q e :=
  chore_of_upkeep (upkeep_of_local hQ)

/-- Dealings with one allocator are within the limit if they are within what it says for that one. -/
theorem sized_of_local {limit : Nat → Nat} (hmost : most ≤ limit place) (e : Event α)
    (h : e.Local place most) : e.Sized limit := by
  intro p bytes hbytes
  rcases h with hnone | hdealing
  · cases (request?_of_unasked hnone).symm.trans hbytes
  · cases hdealing with
    | granted hpos hle =>
        cases hbytes
        exact ⟨hpos, Nat.le_trans hle hmost⟩
    | declined hpos hle =>
        cases hbytes
        exact ⟨hpos, Nat.le_trans hle hmost⟩
    | returned => cases hbytes

/-- The same, where one limit holds for all allocators. -/
theorem sized_of_within (place : Nat) : ∀ e : Event α, e.Local place most → e.Sized fun _ => most :=
  sized_of_local (Nat.le_refl most)

/-- What only gives blocks back is within any limit. -/
theorem sized_of_returning {limit : Nat → Nat} (place : Nat) :
    ∀ e : Event α, e.Upkeep place 0 → e.Sized limit :=
  upkeep_of_local (sized_of_local (Nat.zero_le _))

/-- Nothing is granted where no allocator is involved. -/
theorem grants_of_unasked {e : Event α} (h : e.place? = none) : e.grants = [] := by
  cases e <;> first | rfl | cases h

end Event

namespace World

/-- A later world: the events since then satisfy `Q`, and the blocks granted since then are named in
order. -/
def Evolves (Q : Event α → Prop) (w w' : World σ α) : Prop :=
  ∃ es n, w'.trace.toList = w.trace.toList ++ es ∧ (∀ e ∈ es, Q e) ∧
    w'.issued = w.issued + n ∧ (es.flatMap Event.grants).map Prod.fst = List.range' w.issued n

variable {Q Q' : Event α → Prop} {w w' w'' w₀ : World σ α}

theorem Evolves.refl (w : World σ α) : w.Evolves Q w :=
  ⟨[], 0, (List.append_nil _).symm, by simp, rfl, rfl⟩

/-- The events of two stretches follow one another. -/
theorem Evolves.trans (h : w.Evolves Q w') (h' : w'.Evolves Q w'') : w.Evolves Q w'' := by
  obtain ⟨es, n, htrace, hes, hissued, hnames⟩ := h
  obtain ⟨es', n', htrace', hes', hissued', hnames'⟩ := h'
  have hall : ∀ e ∈ es ++ es', Q e := by
    intro e he
    rcases List.mem_append.mp he with he | he
    · exact hes e he
    · exact hes' e he
  have hrange : ((es ++ es').flatMap Event.grants).map Prod.fst = List.range' w.issued (n + n') := by
    rw [List.flatMap_append, List.map_append, hnames, hnames', hissued, List.range'_append_1]
  exact ⟨es ++ es', n + n', by rw [htrace', htrace, List.append_assoc], hall,
    by rw [hissued', hissued, Nat.add_assoc], hrange⟩

/-- One event, with which `n` blocks are granted. -/
theorem Evolves.push {n : Nat} (e : Event α) (hQ : Q e) (htrace : w'.trace = w.trace.push e)
    (hissued : w'.issued = w.issued + n) (hnames : e.grants.map Prod.fst = List.range' w.issued n) :
    w.Evolves Q w' :=
  ⟨[e], n, by rw [htrace, Array.toList_push], by simpa using hQ, hissued, by simpa using hnames⟩

/-- A change of what is neither the trace nor the number of blocks granted. -/
theorem Evolves.of_eq (htrace : w'.trace = w.trace) (hissued : w'.issued = w.issued) :
    w.Evolves Q w' :=
  ⟨[], 0, by rw [htrace, List.append_nil], by simp, hissued, rfl⟩

/-- Of more events, less is claimed. -/
theorem Evolves.mono (h : w.Evolves Q w') (hQ : ∀ e, Q e → Q' e) : w.Evolves Q' w' := by
  obtain ⟨es, n, htrace, hes, hissued, hnames⟩ := h
  exact ⟨es, n, htrace, fun e he => hQ e (hes e he), hissued, hnames⟩

/-- What leads from any world to a later one leads on from a later one. -/
theorem keeps_of_always {act : Act (World σ α) β}
    (h : ∀ w, (act w).Meets (.always (w.Evolves Q))) : Keeps (w₀.Evolves Q) act := by
  intro w hw
  exact (h w).always_imp fun _ => hw.trans

/-! ## Single events -/

/-- An event that is allowed for may be recorded. -/
theorem keeps_record {e : Event α} (hQ : Q e) (hnames : e.grants = []) :
    Keeps (w₀.Evolves Q) (record e) :=
  keeps_of_always fun _ => Evolves.push (n := 0) e hQ rfl rfl (by rw [hnames]; rfl)

/-- An event that involves no allocator. -/
theorem keeps_record_unasked (hQ : ∀ e : Event α, e.place? = none → Q e) {e : Event α}
    (h : e.place? = none) : Keeps (w₀.Evolves Q) (record e) :=
  keeps_record (hQ e h) (Event.grants_of_unasked h)

section Chores

variable (hQ : ∀ e : Event α, e.Chore → Q e)

include hQ

theorem keeps_note (n : Note) : Keeps (w₀.Evolves Q) (note n) := keeps_record (hQ _ .noted) rfl

theorem keeps_receive (x : α) : Keeps (w₀.Evolves Q) (receive x) :=
  keeps_record (hQ _ .received) rfl

theorem keeps_hand (x : α) : Keeps (w₀.Evolves Q) (hand x) := keeps_record (hQ _ .handed) rfl

end Chores

section Dealings

variable {allocator : Allocator} {most : Nat}
  (hQ : ∀ e : Event α, e.Upkeep allocator.place most → Q e)

include hQ

/-- A request within the limit is a dealing with its allocator, granted or not. -/
theorem keeps_request {bytes : Nat} (hpos : 0 < bytes) (hle : bytes ≤ most) :
    Keeps (w₀.Evolves Q) (request allocator bytes) := by
  apply keeps_of_always
  intro w
  unfold request
  simp only [bind_meets, get_meets, ite_meets, modify_meets, pure_meets, refuse_meets]
  constructor
  · intro _
    exact Evolves.push (n := 1) (.granted allocator.place w.issued bytes)
      (hQ _ (.inr (.granted hpos hle))) rfl rfl rfl
  · intro _
    exact Evolves.push (n := 0) (.declined allocator.place bytes) (hQ _ (.inr (.declined hpos hle))) rfl
      rfl rfl

theorem keeps_giveBack (block : Block) (bytes : Nat) :
    Keeps (w₀.Evolves Q) (giveBack allocator block bytes) := by
  apply keeps_of_always
  intro w
  exact Evolves.push (n := 0) (.returned allocator.place block bytes) (hQ _ (.inr .returned)) rfl rfl rfl

end Dealings

end World

/-! ## Handles -/

/-- The handle of the other sequence comes along when that one is copied from, and blocks cannot pass
between the two. -/
def Handle.Foreign (h other : Handle) : Prop := other.propagates ∧ h.isEquivalent other = false

/-- The elements that a handle admits in one block take no more bytes than it admits. -/
theorem Handle.mul_le_maxBytes {h : Handle} {bytes n : Nat} (hn : n ≤ h.maxSize bytes) :
    bytes * n ≤ h.maxBytes := by
  unfold maxSize at hn
  by_cases hzero : bytes = 0
  · rw [hzero, Nat.zero_mul]
    exact Nat.zero_le _
  · rw [if_neg hzero] at hn
    rw [Nat.mul_comm]
    exact (Nat.le_div_iff_mul_le (Nat.pos_of_ne_zero hzero)).mp hn

/-- The same, where more bytes are allowed for. -/
theorem Handle.mul_le {h : Handle} {most : Nat} (hmax : h.maxBytes ≤ most) {bytes n : Nat}
    (hn : n ≤ h.maxSize bytes) : bytes * n ≤ most :=
  Nat.le_trans (mul_le_maxBytes hn) hmax

/-! ## Regions -/

namespace Region

variable {Q : Event α → Prop} {w₀ : World σ α} {allocator : Allocator} {most : Nat}
  (hQ : ∀ e : Event α, e.Upkeep allocator.place most → Q e)

include hQ

/-- A region is asked for by its bytes, unless it has none. -/
theorem yields_allocate {shape : Shape} {capacity : Nat} (hle : shape.bytes * capacity ≤ most) :
    Yields (w₀.Evolves Q) (fun r => r.capacity = capacity) (allocate shape allocator capacity) := by
  unfold allocate
  cases hsome : bytes? shape capacity with
  | none => exact yields_refuse _
  | some bytes =>
      obtain ⟨rfl, _⟩ := bytes?_eq_some_iff.mp hsome
      cases hbytes : shape.bytes * capacity with
      | zero => exact yields_pure rfl
      | succ n =>
          apply (World.keeps_request hQ n.succ_pos (by omega)).bind_yields
          exact fun _ => yields_pure rfl

/-- The block of a region goes back, if it has one. -/
theorem keeps_release (shape : Shape) (r : Region) :
    Keeps (w₀.Evolves Q) (release shape allocator r) := by
  apply (keeps_ofOption _ _).bind
  intro bytes
  apply Keeps.ite (fun _ => keeps_pure _)
  intro _
  apply (keeps_ofOption _ _).bind
  exact fun _ => World.keeps_giveBack hQ _ _

end Region

/-! ## Elements -/

namespace Element

variable (E : Element σ α) {Q : Event α → Prop} {w₀ : World σ α}

section Code

variable (hQ : ∀ e : Event α, e.place? = none → Q e)

include hQ

/-- Element code leaves the event that its result amounts to, and asks no allocator. -/
theorem keeps_run (code : σ → Except String β × σ) {event : Option β → Event α}
    (hunasked : ∀ result, (event result).place? = none) :
    Keeps (w₀.Evolves Q) (run code event) := by
  have hpush : ∀ (result : Option β) (w w' : World σ α), w'.trace = w.trace.push (event result) →
      w'.issued = w.issued → w.Evolves Q w' := by
    intro result w w' htrace hissued
    have hnames := Event.grants_of_unasked (hunasked result)
    exact World.Evolves.push (n := 0) _ (hQ _ (hunasked result)) htrace hissued (by rw [hnames]; rfl)
  apply World.keeps_of_always
  intro w
  simp only [run, bind_meets, get_meets, modify_meets]
  cases (code w.code).1 with
  | ok b => exact hpush (some b) w _ rfl rfl
  | error message => exact hpush none w _ rfl rfl

/-- Cloning is a chore. -/
theorem keeps_clone (source : α) : Keeps (w₀.Evolves Q) (E.clone source) :=
  keeps_run hQ _ fun result => by cases result <;> rfl

/-- Cloning over an element is a series of chores, wherever it stops. -/
theorem keeps_overwrite (source : α) :
    Keeps (fun u : α × World σ α => w₀.Evolves Q u.2) (E.overwrite source) := by
  apply keeps_held_bind
  intro old _ _
  apply (Keeps.inWorld fun _ _ hw => hw).bind
  intro left
  apply Keeps.bind
  · apply Keeps.onFault _ (Act.keeps_hold fun _ _ hw => hw)
    exact Keeps.inWorld fun _ => keeps_run hQ _ fun result => by cases result <;> rfl
  · exact fun _ => Act.keeps_hold fun _ _ hw => hw

/-- Making a default element is a chore. -/
theorem keeps_default : Keeps (w₀.Evolves Q) E.default :=
  keeps_run hQ _ fun result => by cases result <;> rfl

end Code

/-- The drop of an element leaves one event, and faults only where nothing unwinds. -/
theorem drop_pushes (unwinding : Bool) (x : α) (w : World σ α) :
    (E.drop unwinding x w).Meets
      ⟨fun _ w' => w'.trace = w.trace.push (.dropped x false) ∧ w'.issued = w.issued,
        fun _ _ => False,
        fun _ w' => unwinding = false ∧ w'.trace = w.trace.push (.dropped x true) ∧
          w'.issued = w.issued⟩ := by
  simp only [drop, bind_meets, get_meets, modify_meets]
  cases unwinding with
  | true => exact ⟨rfl, rfl⟩
  | false =>
      cases (E.onDrop x w.code).1 with
      | ok _ => exact ⟨rfl, rfl⟩
      | error message => exact ⟨rfl, rfl, rfl⟩

variable (hQ : ∀ e : Event α, e.Chore → Q e)

include hQ

/-- Dropping is a chore, whether it faults or not. -/
theorem keeps_drop (unwinding : Bool) (x : α) : Keeps (w₀.Evolves Q) (E.drop unwinding x) := by
  apply World.keeps_of_always
  intro w
  apply (E.drop_pushes unwinding x w).imp
  · exact fun _ _ hw => World.Evolves.push (n := 0) _ (hQ _ .dropped) hw.1 hw.2 rfl
  · exact fun _ _ => False.elim
  · exact fun _ _ hw => World.Evolves.push (n := 0) _ (hQ _ .dropped) hw.2.1 hw.2.2 rfl

theorem keeps_dropAll (unwinding : Bool) (xs : List α) :
    Keeps (w₀.Evolves Q) (E.dropAll unwinding xs) := by
  induction xs generalizing unwinding with
  | nil => exact keeps_pure _
  | cons x rest ih => exact (keeps_drop E hQ unwinding x).ensuring fun _ => ih _

end Element

/-- The calls of a closure have no place. -/
theorem Maker.keeps_call (maker : Maker α) (k : Nat) {w₀ : World σ α} {Q : Event α → Prop}
    (hQ : ∀ e : Event α, e.place? = none → Q e) :
    Keeps (w₀.Evolves Q) (maker.call k : Act (World σ α) α) := by
  unfold call
  cases maker.onCall k with
  | ok x =>
      apply (World.keeps_record_unasked hQ rfl).bind
      intro _
      apply (World.keeps_record_unasked hQ rfl).bind
      exact fun _ => keeps_pure _
  | error message =>
      apply (World.keeps_record_unasked hQ rfl).bind
      exact fun _ => keeps_fault _

/-! ## Staging areas

Whatever is done with a staging area, it keeps its region. -/

namespace Staging

variable (E : Element σ α) {Q : Event α → Prop} {w₀ : World σ α} {allocator : Allocator} {n : Nat}
  {s : Staging α}

/-- The area has `n` slots, in a block of the allocator if it needs one. -/
def Spans (allocator : Allocator) (n : Nat) (s : Staging α) : Prop :=
  s.allocator = allocator ∧ s.region.capacity = n

/-- The start slot has no bearing on the size of a staging. -/
theorem yields_seek (slot : Nat) (hs : s.Spans allocator n) :
    Yields (w₀.Evolves Q) (Spans allocator n) (s.seek slot : Act (World σ α) (Staging α)) := by
  apply (keeps_require _ _).bind_yields
  intro _
  apply (keeps_require _ _).bind_yields
  exact fun _ => yields_pure hs

/-- Elements may be moved in front of others without a change of its size. -/
theorem yields_moveBefore (existing : List α) (hs : s.Spans allocator n) :
    Yields (w₀.Evolves Q) (Spans allocator n)
      (s.moveBefore existing : Act (World σ α) (Staging α)) := by
  apply (keeps_require _ _).bind_yields
  exact fun _ => yields_pure hs

/-- Elements may be moved behind others without a change of its size. -/
theorem yields_moveAfter (existing : List α) (hs : s.Spans allocator n) :
    Yields (w₀.Evolves Q) (Spans allocator n)
      (s.moveAfter existing : Act (World σ α) (Staging α)) := by
  apply (keeps_require _ _).bind_yields
  exact fun _ => yields_pure hs

/-- The region that comes out has the size of the staging. -/
theorem yields_adopt (hs : s.Spans allocator n) :
    Yields (w₀.Evolves Q) (fun r => r.1.capacity = n)
      (s.adopt : Act (World σ α) (Region × List α)) := by
  apply (keeps_require _ _).bind_yields
  exact fun _ => yields_pure hs.2

section Upkeep

variable {most : Nat} (hQ : ∀ e : Event α, e.Upkeep allocator.place most → Q e)

include hQ

/-- A staging is as large as was asked for, and its request is within the limit. -/
theorem yields_allocate (hle : E.bytes * n ≤ most) :
    Yields (w₀.Evolves Q) (Spans allocator n) (allocate E allocator n) := by
  apply (Region.yields_allocate hQ hle).bind
  exact fun _ hr => yields_pure ⟨rfl, hr⟩

/-- To give a staging up is to drop its elements and to return its block. -/
theorem keeps_discard (unwinding : Bool) (hs : s.Spans allocator n) :
    Keeps (w₀.Evolves Q) (s.discard E unwinding) := by
  obtain ⟨rfl, -⟩ := hs
  apply (E.keeps_dropAll (Event.chore_of_upkeep hQ) unwinding s.elements).ensuring
  exact fun _ => Region.keeps_release hQ _ _

/-- One element more has no bearing on the size. -/
theorem yields_append {make : Act (World σ α) α} (hmake : Keeps (w₀.Evolves Q) make)
    (hs : s.Spans allocator n) :
    Yields (w₀.Evolves Q) (Spans allocator n) (s.append E make) := by
  apply Yields.onFault _ (keeps_discard E hQ true hs)
  apply (keeps_require _ _).bind_yields
  intro _
  apply hmake.bind_yields
  exact fun _ => yields_pure hs

theorem yields_extend {make : Nat → Act (World σ α) α} (hmake : ∀ k, Keeps (w₀.Evolves Q) (make k))
    (k count : Nat) (hs : s.Spans allocator n) :
    Yields (w₀.Evolves Q) (Spans allocator n) (s.extend E make k count) := by
  induction count generalizing k s with
  | zero => exact yields_pure hs
  | succ count ih =>
      apply (yields_append E hQ (hmake k) hs).bind
      exact fun _ ht => ih (k + 1) ht

end Upkeep

end Staging

end Growable
