import Growable.Sequence.Insertion

/-!
# Resizing

A sequence is brought to a given length: surplus elements are dropped, missing ones made at the end.  If
there is room, they are made in the free slots; otherwise in a region of exactly the new length.  Either
way they belong to the sequence only once all of them are made: when one faults, those made before it are
dropped again, and the sequence is as it was.
-/

namespace Growable.Sequence

variable {σ α : Type} (E : Element σ α)

/-- Makes `count` elements, numbered from `k`, behind those of a sequence of `len` elements.  When one
faults, the ones `made` before it are dropped. -/
def makeTail (make : Nat → Act (World σ α) α) (capacity len : Nat) (k : Nat) :
    Nat → List α → Act (World σ α) (List α)
  | 0, made => return made
  | count + 1, made => do
    let x ← Act.onFault
      (do
        let x ← make k
        Act.require (len + made.length < capacity) .slot
        return x)
      (E.dropAll true made)
    makeTail make capacity len (k + 1) count (made ++ [x])

/-- Brings the sequence to a length, with the elements that `make` comes to where some are missing. -/
def resizeMade (n : Nat) (make : Nat → Act (World σ α) α) : SequenceAct σ α Unit := do
  let s ← Act.held
  if n ≤ s.len then
    truncate E n
  else
    Act.ofExcept (Capacity.check n (s.maxSize E))
    if n ≤ s.capacity then
      let tail ← Act.inWorld (makeTail E make s.capacity s.len 0 (n - s.len) [])
      Act.hold { s with items := s.items ++ tail }
    else
      let (region, items) ← Act.inWorld do
        let staging ← Staging.allocate E s.handle.allocator n
        let staging ← staging.seek s.len
        let staging ← staging.extend E make 0 (n - s.len)
        let staging ← staging.moveBefore s.items
        staging.adopt
      install E region items

/-- Brings the sequence to a length, with what a closure returns where elements are missing. -/
def resizeBy (n : Nat) (maker : Maker α) : SequenceAct σ α Unit :=
  resizeMade E n maker.call

/-- Brings the sequence to a length, with default elements where some are missing. -/
def resizeDefault (n : Nat) : SequenceAct σ α Unit :=
  resizeMade E n fun _ => E.default

/-- Takes an element from the caller and brings the sequence to a length, with clones of the element
where some are missing.  The element itself is dropped last, in any case. -/
def resize (n : Nat) (x : α) : SequenceAct σ α Unit := do
  Act.inWorld (World.receive x)
  (resizeMade E n fun _ => E.clone x).ensuring fun unwinding => Act.inWorld (E.drop unwinding x)

end Growable.Sequence
