import Growable.Proofs.BitSequence.Feed
import Growable.Proofs.Program.Demand
import Growable.Proofs.Program.Limits
import Growable.Proofs.Sequence.Feed

/-!
# How long containers become

How many items there has to be room for while an operation is performed depends on the operation, and on what
the iterator yields that it consumes (`Edit.reach`, `BitEdit.reach`).  Shrinking apart, this number decides
what the operation can come to (`Edit.perform_governed`, `BitEdit.perform_governed`).

* `Workspace.lengths_admitted` — as long as no command brings contents under a handle that admits less, no
  container becomes longer than its handle admits;
* `Workspace.moved_room_exceeds` — a container that took over the room of another one becomes longer.
-/

namespace Growable

open Act

variable {σ α : Type} {E : Element σ α} {w : World σ α} {m : Multiset (Asset α)}

/-- How many elements there has to be room for while an operation is performed. -/
def Edit.reach (s : Sequence α) : Edit α → Nat
  | insertFeed position feed => if position ≤ s.len then s.len + feed.members.length else 0
  | extendFeed feed => s.len + feed.members.length
  | assignFeed feed => feed.members.length
  | e => e.need s

/-- What an operation demands until it ends. -/
def Edit.reaches (s : Sequence α) (e : Edit α) : Demand := ⟨e.bounds s, e.reach s, e.ahead⟩

/-- Every operation on a sequence but shrinking does what its demand says. -/
theorem Edit.perform_governed {s : Sequence α} (hs : Sequence.Fitting E m (s, w)) (e : Edit α)
    (he : e ≠ .shrink) :
    (e.reaches s).Governs (Sequence.storage E) e.given s w (e.perform E (s, w)) := by
  have hanswered := e.perform_answered (w := w) hs.sound.valid.len_le hs.fits
  cases e with
  | insertFeed position feed =>
      apply Demand.Governs.answer
      exact (Sequence.insertFeed_governed hs position feed).of_eq rfl
        fun hbounds => if_pos (le_of_checkPosition_eq_ok hbounds)
  | extendFeed feed =>
      apply Demand.Governs.answer
      rw [Sequence.extendFeed, held_bind]
      exact (Sequence.insertFeed_governed hs s.len feed).of_eq
        (checkPosition_eq_ok (Nat.le_refl _)).symm fun _ => rfl
  | assignFeed feed =>
      exact ((Sequence.assignFeed_governed hs feed).of_eq rfl fun _ => rfl).answer
  | shrink => exact absurd rfl he
  | _ => exact (hanswered rfl).governs

/-- How many bits there has to be room for while an operation is performed. -/
def BitEdit.reach (s : BitSequence) : BitEdit → Nat
  | insertFeed position feed => if position ≤ s.len then s.len + feed.members.length else 0
  | extendFeed feed => s.len + feed.members.length
  | assignFeed feed => feed.members.length
  | e => e.need s

/-- What an operation demands until it ends. -/
def BitEdit.reaches (s : BitSequence) (e : BitEdit) : Demand := ⟨e.bounds s, e.reach s, e.ahead⟩

/-- Every operation on a bit sequence but shrinking does what its demand says. -/
theorem BitEdit.perform_governed {s : BitSequence} (hs : BitSequence.Fitting m (s, w)) (e : BitEdit)
    (he : e ≠ .shrink) :
    (e.reaches s).Governs BitSequence.storage none s w (e.perform (s, w)) := by
  have hanswered := e.perform_answered (w := w) hs.sound.valid.len_le hs.fits
  cases e with
  | insertFeed position feed =>
      apply Demand.Governs.answer
      exact (BitSequence.insertFeed_governed hs position feed).of_eq rfl
        fun hbounds => if_pos (le_of_checkPosition_eq_ok hbounds)
  | extendFeed feed =>
      apply Demand.Governs.answer
      rw [BitSequence.extendFeed, held_bind]
      exact (BitSequence.insertFeed_governed hs s.len feed).of_eq
        (checkPosition_eq_ok (Nat.le_refl _)).symm fun _ => rfl
  | assignFeed feed =>
      exact ((BitSequence.assignFeed_governed hs feed).of_eq rfl fun _ => rfl).answer
  | shrink => exact absurd rfl he
  | _ => exact (hanswered rfl).governs

/-- The number of elements, or bits. -/
def Container.len : Container α → Nat
  | elements s => s.len
  | bits s => s.len

/-- A valid container has the room for its length. -/
theorem Container.Valid.length_le {c : Container α} (hc : c.Valid E) : c.len ≤ c.capacity := by
  cases c with
  | elements s => exact hc.len_le
  | bits s => exact hc.len_le

namespace Workspace

variable {ws : Workspace σ α} {a : Nat}

section Fitting

variable (hs : Sound E 0 ws) (hadmitted : ws.Admitted E)

include hs hadmitted

/-- A sequence of a workspace in custody fits its handle. -/
theorem fitting_sequence {s : Sequence α} (hsome : ws.sequence? a = some s) :
    Sequence.Fitting E ((ws.put a none).assets E + 0) (s, ws.world) := by
  have hc := container?_of_sequence? hsome
  obtain ⟨hvalid, howns⟩ := hs.parts hc
  exact ⟨⟨hvalid, howns⟩, hadmitted a _ hc⟩

theorem fitting_bitSequence {t : BitSequence} (hsome : ws.bitSequence? a = some t) :
    BitSequence.Fitting ((ws.put a none).assets E + 0) (t, ws.world) := by
  have hc := container?_of_bitSequence? hsome
  obtain ⟨hvalid, howns⟩ := hs.parts hc
  exact ⟨⟨hvalid, howns⟩, hadmitted a _ hc⟩

end Fitting

/-- No container is longer than its handle admits, and no operation makes it so: what needs more room than the
handle admits is rejected, and what an iterator yields is not put in where it is too much. -/
structure Contained (E : Element σ α) (ws : Workspace σ α) : Prop where
  lengths : ∀ a c, ws.container? a = some c → c.len ≤ c.maxSize E
  exceeding : ∀ a s, ws.sequence? a = some s → ∀ e : Edit α, s.maxSize E < e.need s →
    (e.perform E (s, ws.world)).Meets (.rejected .capacityExceeded [] e.given s ws.world)
  exceedingBits : ∀ a t, ws.bitSequence? a = some t → ∀ e : BitEdit, t.maxSize < e.need t →
    (e.perform (t, ws.world)).Meets (.rejected .capacityExceeded [] none t ws.world)
  admits : E.toShape.Lawful → ∀ a s, ws.sequence? a = some s → ∀ e : Edit α, e ≠ .shrink →
    e.bounds s = .ok () →
    (e.perform E (s, ws.world)).Meets (.admitting (Sequence.storage E) (e.reach s) s ws.world)
  admitsBits : ∀ a t, ws.bitSequence? a = some t → ∀ e : BitEdit, e ≠ .shrink → e.bounds t = .ok () →
    (e.perform (t, ws.world)).Meets (.admitting BitSequence.storage (e.reach t) t ws.world)

/-- **The maximum size is the greatest length.**  After every program that respects the limits of the handles,
whatever was refused or faulted in it, no container is longer than its handle admits.  A further operation that
needs more room than that is rejected for lack of capacity; and one that consumes an iterator is not done if
too many items come: then it is refused for lack of capacity, unless an allocator declined before, or some code
of elements or of the iterator faulted. -/
theorem lengths_admitted (E : Element σ α) (registers : Nat) (accounts : List Account) (code : σ)
    (commands : List (Command σ α))
    (hrespectful : Respectful E (initial registers accounts code) commands) :
    Contained E (runAll E (initial registers accounts code) commands).2 := by
  have hs : Sound E 0 (runAll E (initial registers accounts code) commands).2 :=
    runAll_sound commands (sound_initial registers accounts code)
  have hadmitted := runAll_admitted (sound_initial registers accounts code)
    (admitted_initial registers accounts code) commands hrespectful
  constructor
  · exact fun a c hc => (hs.valid a c hc).length_le.trans (hadmitted a c hc)
  · intro a s hsome e hmax
    have hfitting := fitting_sequence hs hadmitted hsome
    exact e.perform_exceeding hfitting.sound.valid.len_le hfitting.fits hmax
  · intro a t hsome e hmax
    have hfitting := fitting_bitSequence hs hadmitted hsome
    exact e.perform_exceeding hfitting.sound.valid.len_le hfitting.fits hmax
  · intro hshape a s hsome e he hbounds
    exact (e.perform_governed (fitting_sequence hs hadmitted hsome) he).admits hshape hbounds
  · intro a t hsome e he hbounds
    exact (e.perform_governed (fitting_bitSequence hs hadmitted hsome) he).admits Word.lawful_shape hbounds

/-- A sequence takes over the room of another one, which is as much as its handle admits. -/
theorem lengths_admitted_moved :
    let E : Element Unit Nat := .plain ⟨4, 4⟩ 0
    let wide : Handle := .of ⟨0, .numbered 0⟩
    let commands : List (Command Unit Nat) :=
      [.create 0 (.withCapacity 2) wide, .create 1 .empty (wide.capped 8), .moveFrom 1 0]
    let ws := (runAll E (initial 2 [.unlimited] ()) commands).2
    Respectful E (initial 2 [.unlimited] ()) commands ∧
      (ws.sequence? 1).map (fun s => (s.capacity, s.maxSize E)) = some (2, 2) ∧ Contained E ws := by
  intro E wide commands ws
  have hfits : ((runAll E (initial 2 [.unlimited] ()) (commands.take 2)).2.pair? 1 0).all
      (fun pair => decide (pair.2.movedBytes E pair.1.handle ≤ pair.1.handle.maxBytes)) = true := by
    decide +kernel
  have hrespectful : Respectful E (initial 2 [.unlimited] ()) commands := by
    refine ⟨trivial, trivial, fun c d hpair => ?_, trivial⟩
    change (runAll E (initial 2 [.unlimited] ()) (commands.take 2)).2.pair? 1 0 = some (c, d) at hpair
    rw [hpair] at hfits
    exact of_decide_eq_true hfits
  exact ⟨hrespectful, by decide +kernel, lengths_admitted E 2 [.unlimited] () commands hrespectful⟩

/-- A sequence takes over the room of another one, which is more than its handle admits.  A third number is
pushed where two of them are admitted. -/
theorem moved_room_exceeds :
    let E : Element Unit Nat := .plain ⟨4, 4⟩ 0
    let wide : Handle := .of ⟨0, .numbered 0⟩
    let ws := (runAll E (initial 2 [.unlimited] ())
      [.create 0 (.withCapacity 8) wide, .create 1 .empty (wide.capped 8), .moveFrom 1 0, .edit 1 (.push 1),
        .edit 1 (.push 2)]).2
    let pushed := ws.run E (.edit 1 (.push 3))
    (ws.sequence? 1).map (fun s => (s.items, s.maxSize E)) = some ([1, 2], 2) ∧
      pushed.1 = .answer .nothing ∧
      (pushed.2.sequence? 1).map (fun s => (s.items, s.maxSize E)) = some ([1, 2, 3], 2) :=
  ⟨by decide +kernel, rfl, by decide +kernel⟩

end Workspace

end Growable
