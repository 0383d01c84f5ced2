import Growable.Sequence.Removal

/-!
# Insertion

Elements are put at the end (`push`, `extendAll`) or at a position (`insert` and its kin).  While there
is room, the elements behind the position are shifted aside, and the new ones are made in the opening;
otherwise everything is put together in a larger region.

* An element that could not be stored is dropped.
* An `Opening` stands for a sequence whose elements are shifted aside: new elements may be copies of old
  ones, which are then read where they are now (`Opening.former?`).
* When making an element faults in an opening, the opening closes over what was not made yet.
* An iterator does not say how many elements it will yield; they are put at the end one by one, and
  rotated into place in the end.
-/

namespace Growable

/-- A sequence in which there is an opening for `count` new elements at a position: the first `filled` of them
are made, and the `tail` elements from the position on lie behind the opening. -/
structure Opening (α : Type) where
  cells : Cells α
  position : Nat
  count : Nat
  filled : Nat
  tail : Nat

namespace Opening

variable {α : Type}

/-- Shifts the elements from a position on aside, to make an opening for `count` new ones. -/
def of? (items : List α) (position count : Nat) : Option (Opening α) := do
  let tail := items.length - position
  let cells ← (Cells.ofItems (items.length + count) items).copy? position (position + count) tail
  return ⟨cells, position, count, 0, tail⟩

/-- The element that had an index before the opening was made, wherever it is now. -/
def former? (o : Opening α) (index : Nat) : Option α := o.cells.former? o.position o.count index

/-- One more new element. -/
def fill? (o : Opening α) (x : α) : Option (Opening α) := do
  let cells ← o.cells.write? (o.position + o.filled) x
  return { o with cells, filled := o.filled + 1 }

/-- The elements of the sequence once the opening is closed: unless it is filled, those that were shifted aside
come back to behind the new ones. -/
def closed? (o : Opening α) : Option (List α) :=
  let stop := o.position + o.filled
  if o.filled = o.count then o.cells.run? 0 (stop + o.tail)
  else o.cells.closeUp? stop (o.position + o.count) o.tail

end Opening

namespace Sequence

variable {σ α : Type} (E : Element σ α)

/-- Stores an element in the first free slot. -/
def store (x : α) : SequenceAct σ α Unit := do
  let s ← Act.held
  Act.require (s.len < s.capacity) .slot
  Act.hold { s with items := s.items ++ [x] }

/-- Puts one more element at the end, in a larger region. -/
def pushGrown (make : Act (World σ α) α) : SequenceAct σ α Unit := do
  let s ← Act.held
  let required ← Act.ofExcept (s.required 1)
  let capacity ← Act.ofExcept (Capacity.grow s.capacity required (s.maxSize E))
  let (region, items) ← Act.inWorld do
    World.note (.growingToPush s.capacity capacity)
    let staging ← Staging.allocate E s.handle.allocator capacity
    let staging ← staging.seek s.len
    let staging ← staging.append E make
    let staging ← staging.moveBefore s.items
    staging.adopt
  install E region items

/-- Puts the element that `make` comes to at the end.  It is made only once there is room for it. -/
def pushBy (make : Act (World σ α) α) : SequenceAct σ α Unit := do
  let s ← Act.held
  if s.len = s.capacity then
    pushGrown E make
  else
    let x ← Act.inWorld make
    store x

/-- Takes an element from the caller and puts it at the end, or drops it. -/
def push (x : α) : SequenceAct σ α Unit := do
  Act.inWorld (World.receive x)
  (pushBy E (pure x)).onRefusal (Act.inWorld (E.drop false x))

/-- Puts `count` elements at a position, in a larger region.  The `k`-th is what `make` comes to for `k`, and
for a way to read the old elements, which stay where they are meanwhile. -/
def insertGrown (position count : Nat) (make : (Nat → Option α) → Nat → Act (World σ α) α) :
    SequenceAct σ α Unit := do
  let s ← Act.held
  let required ← Act.ofExcept (s.required count)
  let capacity ← Act.ofExcept (Capacity.grow s.capacity required (s.maxSize E))
  let former := (Cells.ofItems s.len s.items).former? position 0
  let (region, items) ← Act.inWorld do
    World.note (.growingToInsert s.capacity capacity count)
    let staging ← Staging.allocate E s.handle.allocator capacity
    let staging ← staging.seek position
    let staging ← staging.extend E (make former) 0 count
    let staging ← staging.moveBefore (s.items.take position)
    let staging ← staging.moveAfter (s.items.drop position)
    staging.adopt
  Act.require (items.length = required) .length
  install E region items

/-- Puts the element that `make` comes to at a position.  It is made only once there is room for it. -/
def insertBy (position : Nat) (make : Act (World σ α) α) : SequenceAct σ α Unit := do
  let s ← Act.held
  Act.ofExcept (checkPosition position s.len)
  if s.len = s.capacity then
    insertGrown E position 1 fun _ _ => make
  else
    let x ← Act.inWorld make
    Act.require (s.len < s.capacity) .slot
    let items ← Act.ofOption .slot do
      let opening ← Opening.of? s.items position 1
      let opening ← opening.fill? x
      opening.closed?
    Act.hold { s with items }

/-- Takes an element from the caller and puts it at a position, or drops it. -/
def insert (position : Nat) (x : α) : SequenceAct σ α Unit := do
  Act.inWorld (World.receive x)
  (insertBy E position (pure x)).onRefusal (Act.inWorld (E.drop false x))

/-- Closes an opening. -/
def close (opening : Opening α) : SequenceAct σ α Unit := do
  let s ← Act.held
  let items ← Act.ofOption .slot opening.closed?
  Act.hold { s with items }

/-- Makes `count` more elements in an opening, and closes it, whatever happens.  Each is what `make` comes to
for its number, and for a way to read the old elements where they are now. -/
def fillOpening (make : (Nat → Option α) → Nat → Act (World σ α) α) :
    Nat → Opening α → SequenceAct σ α Unit
  | 0, opening => close opening
  | count + 1, opening => do
    let x ← (Act.inWorld (make opening.former? opening.filled)).onFault (close opening)
    let opening ← Act.ofOption .slot (opening.fill? x)
    fillOpening make count opening

/-- Puts `count` elements at a position, the `k`-th being what `make` comes to for `k`, and for a way to read
the old elements.  The sequence ends at the position while there is an opening in it. -/
def insertMade (position count : Nat) (make : (Nat → Option α) → Nat → Act (World σ α) α) :
    SequenceAct σ α Unit := do
  let s ← Act.held
  Act.ofExcept (checkPosition position s.len)
  if count = 0 then
    return
  let required ← Act.ofExcept (s.required count)
  Act.ofExcept (Capacity.check required (s.maxSize E))
  if s.capacity < required then
    insertGrown E position count make
  else
    let opening ← Act.ofOption .slot (Opening.of? s.items position count)
    Act.hold { s with items := s.items.take position }
    fillOpening make count opening

/-- Puts `count` clones of an element at a position. -/
def insertCopies (position count : Nat) (x : α) : SequenceAct σ α Unit :=
  insertMade E position count fun _ _ => E.clone x

/-- Puts clones of some elements at a position. -/
def insertAll (position : Nat) (xs : List α) : SequenceAct σ α Unit :=
  insertMade E position xs.length fun _ k => do
    let x ← Act.ofOption .source xs[k]?
    E.clone x

/-- Puts clones of the sequence's own elements in a span at a position. -/
def insertOwn (position : Nat) (span : Span) : SequenceAct σ α Unit := do
  let s ← Act.held
  let (start, stop) ← Act.ofExcept (span.within s.len)
  insertMade E position (stop - start) fun former? k => do
    let x ← Act.ofOption .source (former? (start + k))
    E.clone x

/-- Puts clones of some elements at the end. -/
def extendAll (xs : List α) : SequenceAct σ α Unit := do
  let s ← Act.held
  insertAll E s.len xs

/-- Puts what an iterator yields at the end, one by one. -/
def pushFeed : Feed α → SequenceAct σ α Unit
  | .finish => Act.inWorld (World.record .ended)
  | .raise message => do
    Act.inWorld (World.record .feedFaulted)
    Act.fault (.raised message)
  | .yield x rest => do
    Act.inWorld (World.record .yielded)
    push E x
    pushFeed rest

/-- Rotates the elements from `position` on to the left, so that the one at `middle` comes first. -/
def rotate (position middle : Nat) : SequenceAct σ α Unit := do
  let s ← Act.held
  Act.require (middle ≤ s.len) .slot
  let moved := s.items.drop position
  Act.hold { s with
    items := s.items.take position ++ moved.drop (middle - position) ++ moved.take (middle - position) }

/-- Puts what an iterator yields at a position.  If an element is refused, the ones before it are dropped
again. -/
def insertFeed (position : Nat) (feed : Feed α) : SequenceAct σ α Unit := do
  let before ← Act.held
  Act.ofExcept (checkPosition position before.len)
  Act.onRefusal (pushFeed E feed) do
    let s ← Act.held
    Act.inWorld (World.note (.interrupted (s.len - before.len)))
    truncate E before.len
  rotate position before.len

/-- Puts what an iterator yields at the end. -/
def extendFeed (feed : Feed α) : SequenceAct σ α Unit := do
  let s ← Act.held
  insertFeed E s.len feed

end Sequence

end Growable
