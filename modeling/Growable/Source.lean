import Growable.World

/-!
# Closures and iterators

What the caller hands in to produce elements, seen from the storage: a `Maker` is a closure that is
called again and again, a `Feed` an iterator that is asked again and again.  Each call leaves an event,
and each element that a call produces is received into the storage.

Items that are read come from an iterator, too; such an item may turn out not to be valid.
-/

namespace Growable

/-- A closure: what its calls, counted from zero, return or raise. -/
structure Maker (α : Type) where
  onCall : Nat → Except String α

/-- An iterator: what it does each time it is asked, up to its end. -/
inductive Feed (α : Type) where
  /-- It has come to its end. -/
  | finish
  /-- It faults. -/
  | raise (message : String)
  /-- It yields an element, and goes on. -/
  | yield (element : α) (rest : Feed α)

/-- The iterator over the members of a list, which ends as `last` says. -/
def Feed.ofList {α : Type} (members : List α) (last : Feed α) : Feed α :=
  members.foldr .yield last

/-- A list stands for the iterator over its members. -/
instance {α : Type} : Coe (List α) (Feed α) := ⟨fun members => .ofList members .finish⟩

/-- The elements that an iterator yields until it ends or faults. -/
def Feed.members {α : Type} : Feed α → List α
  | finish => []
  | raise _ => []
  | yield element rest => element :: rest.members

/-- What reading the items of an iterator comes to: all of them, or nothing if one is not valid, or what the
iterator raises before there is one. -/
def Feed.readItems {α : Type} : Feed (Option α) → Except String (Option (List α))
  | finish => .ok (some [])
  | raise message => .error message
  | yield none _ => .ok none
  | yield (some item) rest => rest.readItems.map (·.map (item :: ·))

/-- Pushes the items of an iterator up to the first one that is not valid, and says whether all were. -/
def Feed.pushValid {S α : Type} (push : α → Act S Unit) : Feed (Option α) → Act S Bool
  | finish => return true
  | raise message => Act.fault (.raised message)
  | yield none _ => return false
  | yield (some item) rest => do
    push item
    rest.pushValid push

variable {σ α : Type}

/-- Takes an element over from the caller. -/
def World.receive (element : α) : Act (World σ α) Unit :=
  World.record (.received element)

/-- Leaves an element to the caller. -/
def World.hand (element : α) : Act (World σ α) Unit :=
  World.record (.handed element)

/-- The `k`-th call of a closure. -/
def Maker.call (maker : Maker α) (k : Nat) : Act (World σ α) α :=
  match maker.onCall k with
  | .ok element => do
    World.record .called
    World.receive element
    return element
  | .error message => do
    World.record .callFaulted
    Act.fault (.raised message)

end Growable
