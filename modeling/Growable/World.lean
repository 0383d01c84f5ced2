import Growable.Act
import Growable.Allocator
import Growable.Event

/-!
# Worlds

A world holds what all sequences share: the accounts of the allocators, the trace of events, and the
state of the element code.  An account counts what an allocator granted, declined and got back, and its
policy decides each request from these counts and the size that is asked for; so any pattern of
refusals is the policy of some account.

Blocks are named in the order in which they are granted, whichever allocator grants them.
-/

namespace Growable

/-- What an allocator did so far. -/
structure Tally where
  /-- The number of blocks granted. -/
  granted : Nat
  /-- The number of requests declined. -/
  declined : Nat
  /-- The number of blocks taken back. -/
  returned : Nat
  /-- The bytes granted, less the bytes taken back.  Blocks may come back to another allocator than the
  one that granted them, so that this can be negative. -/
  balance : Int

namespace Tally

/-- Nothing yet. -/
def zero : Tally := ⟨0, 0, 0, 0⟩

/-- One more block is granted. -/
def grant (tally : Tally) (bytes : Nat) : Tally :=
  { tally with granted := tally.granted + 1, balance := tally.balance + bytes }

/-- One more request is declined. -/
def decline (tally : Tally) : Tally :=
  { tally with declined := tally.declined + 1 }

/-- One more block comes back. -/
def restore (tally : Tally) (bytes : Nat) : Tally :=
  { tally with returned := tally.returned + 1, balance := tally.balance - bytes }

end Tally

/-- Whether an allocator grants a request, from what it did so far and the bytes asked for. -/
abbrev Policy := Tally → Nat → Bool

/-- The state of an allocator. -/
structure Account where
  tally : Tally
  policy : Policy

namespace Account

/-- An account that grants everything, as yet unused. -/
def unlimited : Account := ⟨.zero, fun _ _ => true⟩

/-- From now on, grants the next `remaining` requests (all, if there is no such number), but none larger
than `largest` bytes. -/
def limited (account : Account) (remaining : Option Nat) (largest : Nat) : Account :=
  { account with
    policy := fun tally bytes => bytes ≤ largest &&
      match remaining with
      | none => true
      | some n => tally.granted < account.tally.granted + n }

end Account

/-- What all sequences share: the accounts of the allocators by their places, the number of blocks
granted so far, the trace of events, and the state of the element code. -/
structure World (σ α : Type) where
  accounts : List Account
  issued : Nat
  trace : Array (Event α)
  code : σ

namespace World

variable {σ α : Type}

/-- Adds an event to the trace. -/
def record (event : Event α) : Act (World σ α) Unit :=
  Act.modify fun w => { w with trace := w.trace.push event }

/-- Adds a note to the trace. -/
def note (note : Note) : Act (World σ α) Unit :=
  record (.noted note)

/-- Changes the tally of the allocator at a place. -/
def retally (place : Nat) (change : Tally → Tally) (w : World σ α) : World σ α :=
  { w with accounts := w.accounts.modify place fun a => { a with tally := change a.tally } }

/-- Asks an allocator for a block of some bytes. -/
def request (allocator : Allocator) (bytes : Nat) : Act (World σ α) Block := do
  let w ← Act.get
  let granted : Bool :=
    match w.accounts[allocator.place]? with
    | some account => account.policy account.tally bytes
    | none => false
  if granted then
    Act.modify fun w => { w.retally allocator.place (·.grant bytes) with issued := w.issued + 1 }
    record (.granted allocator.place w.issued bytes)
    return w.issued
  else
    Act.modify (retally allocator.place (·.decline))
    record (.declined allocator.place bytes)
    Act.refuse .allocationFailure

/-- Gives a block of some bytes back through an allocator. -/
def giveBack (allocator : Allocator) (block : Block) (bytes : Nat) : Act (World σ α) Unit := do
  Act.modify (retally allocator.place (·.restore bytes))
  record (.returned allocator.place block bytes)

/-- The number of elements in the storage, from the trace alone. -/
def live (w : World σ α) : Int :=
  w.trace.foldl (fun n e => n + e.entering.length - e.leaving.length) 0

end World

end Growable
