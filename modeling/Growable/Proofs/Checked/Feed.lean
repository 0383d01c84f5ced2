import Growable.Proofs.Checked.Insertion

/-!
# Elements that come one by one, checked

What an iterator yields is pushed one by one, and rotated into place in the end; when an element is refused,
the ones before it are counted and dropped.  What comes after a push relies on the sequence being valid, with
a capacity that is still a size: that much is kept by all operations of a sequence in custody
(`Sequence.Counted`, `Sequence.Counted.meets`).
-/

namespace Growable.Sequence

open Checked

variable {σ α β : Type} (E : Element σ α)

/-- Puts what an iterator yields at the end, one by one. -/
def pushFeedChecked : Feed α → Checked (Sequence α × World σ α) Unit
  | .finish => inWorld (ofAct (World.record .ended))
  | .raise message => do
    inWorld (ofAct (World.record .feedFaulted))
    ofAct (Act.fault (.raised message))
  | .yield x rest => do
    inWorld (ofAct (World.record .yielded))
    pushChecked E x
    pushFeedChecked rest

/-- Rotates the elements from `position` on to the left, so that the one at `middle` comes first. -/
def rotateChecked (position middle : Nat) : Checked (Sequence α × World σ α) Unit := do
  let s ← ofAct Act.held
  require (position ≤ s.len)
  let moved := s.items.drop position
  let count ← difference middle position
  require (count ≤ moved.length)
  ofAct (Act.hold { s with items := s.items.take position ++ moved.drop count ++ moved.take count })

/-- Puts what an iterator yields at a position; if an element is refused, the ones before it are dropped
again. -/
def insertFeedChecked (position : Nat) (feed : Feed α) : Checked (Sequence α × World σ α) Unit := do
  let before ← ofAct Act.held
  ofAct (Act.ofExcept (checkPosition position before.len))
  onRefusal (pushFeedChecked E feed) do
    let s ← ofAct Act.held
    let count ← difference s.len before.len
    inWorld (ofAct (World.note (.interrupted count)))
    truncateChecked E before.len
  rotateChecked position before.len

/-- Puts what an iterator yields at the end. -/
def extendFeedChecked (feed : Feed α) : Checked (Sequence α × World σ α) Unit := do
  let s ← ofAct Act.held
  insertFeedChecked E s.len feed

/-! ## Custody and capacity -/

/-- A sequence in custody with a capacity that is a size. -/
structure Counted (m : Multiset (Asset α)) (u : Sequence α × World σ α) : Prop where
  sound : Sound E m u
  capacity_le : u.1.capacity ≤ Size.limit

variable {E} {s : Sequence α} {w : World σ α} {m : Multiset (Asset α)}

/-- What is in custody with a capacity that is a size can be counted. -/
theorem Counted.countable {u : Sequence α × World σ α} (h : Counted E m u) : u.1.Countable E :=
  ⟨h.sound.valid, h.capacity_le⟩

/-- A region that the handle admits has a capacity that is a size. -/
theorem capacity_le_limit {h : Handle} (r : Region) (hr : r.capacity ≤ h.maxSize E.bytes) :
    r.capacity ≤ Size.limit :=
  hr.trans (h.maxSize_le_limit E.bytes)

/-- An operation that is sound, and that only ever takes regions that the handle admits, keeps the capacity
a size, however it ends. -/
theorem Counted.meets {act : SequenceAct σ α β} {post : Post (Sequence α) β} (h : Counted E m (s, w))
    (hmeets : (act (s, w)).Meets (soundly E m post))
    (hkeeps : Act.Keeps (Under s.handle (fun r => r.capacity ≤ Size.limit) (fun _ => True) w) act) :
    (act (s, w)).Meets ⟨fun b u => Counted E m u ∧ post.done b u.1,
      fun e u => Counted E m u ∧ post.refused e u.1, fun _ u => Counted E m u⟩ := by
  have hunder := hkeeps (s, w) ⟨⟨rfl, h.capacity_le⟩, .refl w⟩
  refine (hmeets.and hunder).imp ?_ ?_ ?_
  · intro b u hu
    exact ⟨⟨hu.1.1, hu.2.1.2⟩, hu.1.2⟩
  · intro e u hu
    exact ⟨⟨hu.1.1, hu.2.1.2⟩, hu.1.2⟩
  · intro f u hu
    exact ⟨hu.1.2.1, hu.2.1.2⟩

/-- An event that concerns no asset. -/
theorem Counted.record {e : Event α} (h : Counted E m (s, w)) (hgains : e.gains = 0)
    (hlosses : e.losses = 0) : Counted E m (s, { w with trace := w.trace.push e }) :=
  ⟨⟨h.sound.valid, World.record_meets hgains hlosses h.sound.owns⟩, h.capacity_le⟩

/-- A push leaves a sequence whose capacity is still a size. -/
theorem Counted.push_meets (h : Counted E m (s, w)) (x : α) :
    (push E x (s, w)).Meets ⟨fun _ u => Counted E m u ∧ u.1.items = s.items ++ [x],
      fun _ u => Counted E m u, fun _ u => Counted E m u⟩ :=
  (h.meets (Sequence.push_meets x h.sound)
    (keeps_push (fun _ _ => trivial) (Nat.le_refl _) capacity_le_limit x)).imp
    (fun _ _ hu => ⟨hu.1, hu.2.2⟩) (fun _ _ hu => hu.1) (fun _ _ => id)

/-! ## Nothing fails -/

variable (hfits : E.toShape.Fits)

include hfits

/-- Each push leaves a sequence that can take the next one. -/
theorem runs_pushFeed (h : Counted E m (s, w)) (feed : Feed α) :
    (pushFeedChecked E feed).Runs (pushFeed E feed) (s, w) := by
  induction feed generalizing s w with
  | finish => exact (runs_ofAct _ _).inWorld
  | raise message => exact runs_record (runs_ofAct _ _)
  | yield x rest ih =>
      have hasked := h.record (e := .yielded) rfl rfl
      refine runs_record ((runs_push hfits hasked.countable x).bind_of (hasked.push_meets x) ?_)
      exact fun _ u hu => ih hu.1

omit hfits in
/-- The elements that are rotated are behind the position. -/
theorem runs_rotate {position middle : Nat} (hposition : position ≤ middle) (hmiddle : middle ≤ s.len) :
    (rotateChecked position middle).Runs (rotate position middle) (s, w) := by
  have hcount : middle - position ≤ (s.items.drop position).length := by
    rw [List.length_drop]
    exact Nat.sub_le_sub_right hmiddle position
  refine runs_held (runs_require (hposition.trans hmiddle) (runs_difference hposition ?_))
  rw [Act.require_eq_pure hmiddle, pure_bind]
  exact runs_require hcount (runs_ofAct _ _)

/-- What was pushed is counted from the length before. -/
theorem runs_insertFeed (h : Counted E m (s, w)) (position : Nat) (feed : Feed α) :
    (insertFeedChecked E position feed).Runs (insertFeed E position feed) (s, w) := by
  refine runs_held (runs_ofExcept fun _ hcheck => ?_)
  have hposition : position ≤ s.len := le_of_checkPosition_eq_ok hcheck
  have hpushed := h.meets (pushFeed_meets feed h.sound)
    (keeps_pushFeed (fun _ _ => trivial) (Nat.le_refl _) capacity_le_limit feed)
  have hlonger : ∀ {t : Sequence α} {n : Nat}, t.items = s.items ++ feed.members.take n → s.len ≤ t.len := by
    intro t n hitems
    rw [len, len, hitems, List.length_append]
    exact Nat.le_add_right _ _
  have hdone : (pushFeed E feed (s, w)).Meets
      ⟨fun _ u => s.len ≤ u.1.len, fun _ _ => True, fun _ _ => True⟩ := by
    refine hpushed.imp ?_ (fun _ _ _ => trivial) (fun _ _ _ => trivial)
    intro _ u hu
    obtain ⟨-, -, -, hitems⟩ := hu
    rw [← List.take_length (l := feed.members)] at hitems
    exact hlonger hitems
  refine runs_onRefusal (runs_pushFeed hfits h feed) hdone ?_ fun _ u hu => runs_rotate hposition hu
  intro e u hrefused
  rw [hrefused] at hpushed
  obtain ⟨hcounted, -, -, n, hitems⟩ := hpushed
  exact runs_held (runs_difference (hlonger hitems) (runs_record (runs_truncate hcounted.countable s.len)))

/-- The position of an extension is the length. -/
theorem runs_extendFeed (h : Counted E m (s, w)) (feed : Feed α) :
    (extendFeedChecked E feed).Runs (extendFeed E feed) (s, w) :=
  runs_held (runs_insertFeed hfits h s.len feed)

end Growable.Sequence
