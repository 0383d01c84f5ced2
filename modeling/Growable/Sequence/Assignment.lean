import Growable.Sequence.Creation

/-!
# Assignment

The contents of a sequence are replaced by others.

* From given elements: while they fit, clones of them overwrite the old elements one by one, and further
  ones are stored behind; otherwise they are put together in a region of exactly their number, and then
  take the place of the old contents.  When overwriting an element faults, whatever that left stays in its
  slot.
* From an iterator: each element that it yields takes the place of an old one, which is dropped; further
  ones are pushed; old elements that are left when it ends are dropped.
* From another sequence, by copying (`copyFrom`): the handle comes along if it propagates.  If it does
  and blocks cannot pass between the two allocators, a complete copy takes the place of the old contents.
* From another sequence, by moving (`moveFrom`): if blocks can pass to this sequence's allocator, the
  region changes hands; otherwise the elements are moved to a new region.
-/

namespace Growable.Sequence

variable {σ α : Type} (E : Element σ α)

/-- Overwrites `count` elements, from the `k`-th on, by clones of what `source` comes to. -/
def overwriteFrom (source : Nat → Act (World σ α) α) (k : Nat) : Nat → SequenceAct σ α Unit
  | 0 => return
  | count + 1 => do
    let x ← Act.inWorld (source k)
    inSlot k (E.overwrite x)
    overwriteFrom source (k + 1) count

/-- Stores `count` clones of what `source` comes to behind the elements. -/
def storeFrom (source : Nat → Act (World σ α) α) : Nat → SequenceAct σ α Unit
  | 0 => return
  | count + 1 => do
    let s ← Act.held
    let x ← Act.inWorld do
      E.clone (← source s.len)
    store x
    storeFrom source count

/-- Replaces the contents by `count` clones, the `k`-th of what `source` comes to for `k`. -/
def assignMade (count : Nat) (source : Nat → Act (World σ α) α) : SequenceAct σ α Unit := do
  let s ← Act.held
  if count ≤ s.len then
    overwriteFrom E source 0 count
    truncate E count
  else
    Act.ofExcept (Capacity.check count (s.maxSize E))
    if count ≤ s.capacity then
      overwriteFrom E source 0 s.len
      storeFrom E source (count - s.len)
    else
      let (region, items) ← Act.inWorld do
        let staging ← Staging.allocate E s.handle.allocator count
        let staging ← staging.extend E (fun k => do E.clone (← source k)) 0 count
        staging.adopt
      replace E region items

/-- Replaces the contents by `count` clones of an element. -/
def assignCopies (count : Nat) (x : α) : SequenceAct σ α Unit :=
  assignMade E count fun _ => pure x

/-- Replaces the contents by clones of some elements. -/
def assignAll (xs : List α) : SequenceAct σ α Unit :=
  assignMade E xs.length fun k => Act.ofOption .source xs[k]?

/-- A sequence of clones of some elements. -/
def ofList (xs : List α) (handle : Handle) : Act (World σ α) (Sequence α) := do
  let (s, _) ← build E handle (assignAll E xs)
  return s

/-- Puts an element in the place of the `k`-th one, which is then dropped. -/
def supplant (k : Nat) (x : α) : SequenceAct σ α Unit := do
  let s ← Act.held
  let old ← Act.ofOption .slot s.items[k]?
  Act.hold { s with items := s.items.set k x }
  Act.inWorld (E.drop false old)

/-- Lets what an iterator yields take the places from the `k`-th on, as far as the `len` old elements
reach, and puts further ones at the end. -/
def supplantFrom (len : Nat) (k : Nat) : Feed α → SequenceAct σ α Unit
  | .finish => do
    Act.inWorld (World.record .ended)
    if k < len then
      truncate E k
  | .raise message => do
    Act.inWorld (World.record .feedFaulted)
    Act.fault (.raised message)
  | .yield x rest => do
    Act.inWorld (World.record .yielded)
    if k < len then
      Act.inWorld (World.receive x)
      supplant E k x
    else
      push E x
    supplantFrom len (k + 1) rest

/-- Replaces the contents by what an iterator yields. -/
def assignFeed (feed : Feed α) : SequenceAct σ α Unit := do
  let s ← Act.held
  supplantFrom E s.len 0 feed

/-- Replaces the contents by clones of another sequence's, and the handle if that one propagates. -/
def copyFrom (other : Sequence α) : SequenceAct σ α Unit := do
  let s ← Act.held
  if other.handle.propagates && !s.handle.isEquivalent other.handle then
    let copied ← Act.inWorld (other.copy E)
    Act.hold copied
    Act.inWorld (s.dispose E false)
  else
    assignAll E other.items
    if other.handle.propagates then
      let s ← Act.held
      Act.hold { s with handle := other.handle }

/-- Moves the contents of the second sequence into the first, whose own are disposed of. -/
def moveFrom : Act ((Sequence α × Sequence α) × World σ α) Unit := do
  let (s, other) ← Act.held
  if s.handle.isEquivalent other.handle then
    Act.hold (s, { other with region := .empty, items := [] })
    Act.onFirst (replace E other.region other.items)
  else
    let staging ← Act.inWorld do
      let staging ← Staging.allocate E s.handle.allocator other.len
      staging.moveAfter other.items
    Act.hold (s, { other with items := [] })
    let (region, items) ← Act.inWorld staging.adopt
    Act.onFirst (replace E region items)

end Growable.Sequence
