import Growable.Sequence.Assignment
import Growable.Sequence.Drain
import Growable.Sequence.Reading
import Growable.BitSequence.Assignment

/-!
# Commands

A program works on numbered registers, each of which may hold a sequence or a bit sequence.  Its commands
create a container in a register, edit the container in a register, let two containers exchange
contents, or use a container up; and they change the surroundings: the policy of an allocator, and the
state of the element code.

Every operation of the library is a command, so that what holds of all runs of commands holds of all uses
of the library.
-/

namespace Growable

/-- What a command comes to. -/
inductive Answer (α : Type) where
  | nothing
  /-- There is no element, or no bit, to answer with. -/
  | absent
  | element (x : α)
  | bit (value : Bool)
  /-- What the changes of a single bit answered. -/
  | bits (values : List (Option Bool))
  /-- What taking a sequence apart came to, move by move. -/
  | drained (moves : List (Option α × Drain α))

/-- An operation on one sequence. -/
inductive Edit (α : Type) where
  | reserve (capacity : Nat)
  | reserveMore (additional : Nat)
  | shrink
  | push (x : α)
  | pushBy (maker : Maker α)
  | pop
  | insert (position : Nat) (x : α)
  | insertBy (position : Nat) (maker : Maker α)
  | erase (index : Nat)
  | truncate (n : Nat)
  | clear
  | resize (n : Nat) (x : α)
  | resizeDefault (n : Nat)
  | resizeBy (n : Nat) (maker : Maker α)
  | insertCopies (position count : Nat) (x : α)
  | insertAll (position : Nat) (xs : List α)
  | insertOwn (position : Nat) (span : Span)
  | insertFeed (position : Nat) (feed : Feed α)
  | extendAll (xs : List α)
  | extendFeed (feed : Feed α)
  | eraseSpan (span : Span)
  | assignCopies (count : Nat) (x : α)
  | assignAll (xs : List α)
  | assignFeed (feed : Feed α)
  | get (index : Nat)
  | exchange (index : Nat) (x : α)
  | demand (index : Nat)
  | exchangeDemanded (index : Nat) (x : α)
  | carry (x : α)

/-- An operation on one bit sequence. -/
inductive BitEdit where
  | reserve (capacity : Nat)
  | reserveMore (additional : Nat)
  | shrink
  | push (value : Bool)
  | pop
  | insert (position : Nat) (value : Bool)
  | erase (index : Nat)
  | truncate (n : Nat)
  | clear
  | resize (n : Nat) (value : Bool)
  | insertCopies (position count : Nat) (value : Bool)
  | insertAll (position : Nat) (values : List Bool)
  | insertFeed (position : Nat) (feed : Feed Bool)
  | extendAll (values : List Bool)
  | extendFeed (feed : Feed Bool)
  | eraseSpan (span : Span)
  | assignCopies (count : Nat) (value : Bool)
  | assignAll (values : List Bool)
  | assignFeed (feed : Feed Bool)
  | get (index : Nat)
  | set (index : Nat) (value : Bool)
  | change (index : Nat) (changes : List BitChange)

/-- How a sequence is created. -/
inductive Recipe (α : Type) where
  | empty
  | withCapacity (capacity : Nat)
  | replicate (count : Nat) (x : α)
  | ofList (xs : List α)
  | read (hint : Option Nat) (items : Feed (Option α))

/-- A move of a drain. -/
inductive DrainMove where
  | next
  | nextBack
  /-- Looks at what is left. -/
  | look

/-- A command of a program.  Registers are given by their numbers. -/
inductive Command (σ α : Type) where
  | create (a : Nat) (recipe : Recipe α) (handle : Handle)
  | createBits (a : Nat) (recipe : Recipe Bool) (handle : Handle)
  | edit (a : Nat) (e : Edit α)
  | editBits (a : Nat) (e : BitEdit)
  /-- Puts a copy of the container in `a` into `b`. -/
  | copy (a b : Nat)
  /-- The same, where the copy is taken for granted. -/
  | copyDemanded (a b : Nat)
  /-- Replaces the contents of `a` by those of `b`. -/
  | copyFrom (a b : Nat)
  /-- Moves the contents of `b` into `a`. -/
  | moveFrom (a b : Nat)
  | discard (a : Nat)
  | drain (a : Nat) (moves : List DrainMove)
  | setPolicy (place : Nat) (policy : Policy)
  | setCode (code : σ)

variable {σ α : Type}

namespace Answer

/-- An element that may be absent. -/
def ofElement? : Option α → Answer α
  | some x => element x
  | none => absent

/-- A bit that may be absent. -/
def ofBit? : Option Bool → Answer α
  | some value => bit value
  | none => absent

end Answer

/-- Performs an operation on a sequence. -/
def Edit.perform (E : Element σ α) : Edit α → SequenceAct σ α (Answer α)
  | reserve capacity => do Sequence.reserve E capacity; return .nothing
  | reserveMore additional => do Sequence.reserveMore E additional; return .nothing
  | shrink => do Sequence.shrink E; return .nothing
  | push x => do Sequence.push E x; return .nothing
  | pushBy maker => do Sequence.pushBy E (maker.call 0); return .nothing
  | pop => return .ofElement? (← Sequence.pop)
  | insert position x => do Sequence.insert E position x; return .nothing
  | insertBy position maker => do Sequence.insertBy E position (maker.call 0); return .nothing
  | erase index => return .element (← Sequence.erase index)
  | truncate n => do Sequence.truncate E n; return .nothing
  | clear => do Sequence.clear E; return .nothing
  | resize n x => do Sequence.resize E n x; return .nothing
  | resizeDefault n => do Sequence.resizeDefault E n; return .nothing
  | resizeBy n maker => do Sequence.resizeBy E n maker; return .nothing
  | insertCopies position count x => do Sequence.insertCopies E position count x; return .nothing
  | insertAll position xs => do Sequence.insertAll E position xs; return .nothing
  | insertOwn position span => do Sequence.insertOwn E position span; return .nothing
  | insertFeed position feed => do Sequence.insertFeed E position feed; return .nothing
  | extendAll xs => do Sequence.extendAll E xs; return .nothing
  | extendFeed feed => do Sequence.extendFeed E feed; return .nothing
  | eraseSpan span => do Sequence.eraseSpan E span; return .nothing
  | assignCopies count x => do Sequence.assignCopies E count x; return .nothing
  | assignAll xs => do Sequence.assignAll E xs; return .nothing
  | assignFeed feed => do Sequence.assignFeed E feed; return .nothing
  | get index => do
    let s ← Act.held
    return .element (← Act.ofExcept (s.get index))
  | exchange index x => return .element (← Sequence.exchange index x)
  | demand index => return .element (← Sequence.demand index)
  | exchangeDemanded index x => return .element (← Sequence.exchangeDemanded index x)
  | carry x => return .element (← Sequence.carry x)

/-- Performs an operation on a bit sequence. -/
def BitEdit.perform : BitEdit → BitAct σ α (Answer α)
  | reserve capacity => do BitSequence.reserve capacity; return .nothing
  | reserveMore additional => do BitSequence.reserveMore additional; return .nothing
  | shrink => do BitSequence.shrink; return .nothing
  | push value => do BitSequence.push value; return .nothing
  | pop => return .ofBit? (← BitSequence.pop)
  | insert position value => do BitSequence.insert position value; return .nothing
  | erase index => return .bit (← BitSequence.erase index)
  | truncate n => do BitSequence.truncate n; return .nothing
  | clear => do BitSequence.clear; return .nothing
  | resize n value => do BitSequence.resize n value; return .nothing
  | insertCopies position count value => do
    BitSequence.insertCopies position count value
    return .nothing
  | insertAll position values => do BitSequence.insertAll position values; return .nothing
  | insertFeed position feed => do BitSequence.insertFeed position feed; return .nothing
  | extendAll values => do BitSequence.extendAll values; return .nothing
  | extendFeed feed => do BitSequence.extendFeed feed; return .nothing
  | eraseSpan span => do BitSequence.eraseSpan span; return .nothing
  | assignCopies count value => do BitSequence.assignCopies count value; return .nothing
  | assignAll values => do BitSequence.assignAll values; return .nothing
  | assignFeed feed => do BitSequence.assignFeed feed; return .nothing
  | get index => return .bit (← BitSequence.get index)
  | set index value => return .ofBit? (← BitSequence.set index value)
  | change index changes => return .bits (← BitSequence.change index changes)

/-- Creates a sequence; nothing comes of it if an item is not valid. -/
def Recipe.create (E : Element σ α) (handle : Handle) :
    Recipe α → Act (World σ α) (Option (Sequence α))
  | empty => return some (.empty handle)
  | withCapacity capacity => return some (← Sequence.withCapacity E capacity handle)
  | replicate count x => return some (← Sequence.replicate E count x handle)
  | ofList xs => return some (← Sequence.ofList E xs handle)
  | read hint items => Sequence.read E hint items handle

/-- Creates a bit sequence; nothing comes of it if an item is not valid. -/
def Recipe.createBits (handle : Handle) : Recipe Bool → Act (World σ α) (Option BitSequence)
  | empty => return some (.empty handle)
  | withCapacity capacity => return some (← BitSequence.withCapacity capacity handle)
  | replicate count value => return some (← BitSequence.replicate count value handle)
  | ofList values => return some (← BitSequence.ofList values handle)
  | read hint items => BitSequence.read hint items handle

/-- Performs a move of a drain, and comes to the element handed out, if any, and what is left. -/
def DrainMove.perform (move : DrainMove) : Act (Drain α × World σ α) (Option α × Drain α) := do
  let x ←
    match move with
    | next => Drain.next
    | nextBack => Drain.nextBack
    | look => pure none
  return (x, ← Act.held)

end Growable
