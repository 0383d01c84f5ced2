import Growable.World

/-!
# Elements

An element type comes with a size and with code of its own, which works on a state `σ` that belongs to
the element code alone, and which may fault with a message.  `Element` holds that code; the acts below
run it in a world, and leave an event for each run.

While a fault unwinds, a drop does not fault again: `drop true` goes on silently.  Several elements are
dropped front to back, and a fault in one of them does not keep the others from being dropped.
-/

namespace Growable

/-- The space that one value takes in memory. -/
structure Shape where
  bytes : Nat
  align : Nat

/-- The size and the code of an element type. -/
structure Element (σ α : Type) extends Shape where
  /-- Makes a clone of an element. -/
  onClone : α → σ → Except String α × σ
  /-- Makes what the first element becomes when a clone of the second overwrites it. -/
  onOverwrite : α → α → σ → Except String α × σ
  /-- What is in the place of the first element after overwriting it by a clone of the second faulted. -/
  remains : α → α → σ → α
  /-- Makes a default element. -/
  onDefault : σ → Except String α × σ
  /-- Disposes of an element. -/
  onDrop : α → σ → Except String Unit × σ

namespace Element

variable {σ α : Type} (E : Element σ α)

/-- Runs element code, and records the event that its result amounts to. -/
def run {β : Type} (code : σ → Except String β × σ) (event : Option β → Event α) :
    Act (World σ α) β := do
  let w ← Act.get
  let (result, after) := code w.code
  Act.modify fun w => { w with code := after }
  match result with
  | .ok b =>
    World.record (event (some b))
    return b
  | .error message =>
    World.record (event none)
    Act.fault (.raised message)

/-- Makes a clone of an element. -/
def clone (source : α) : Act (World σ α) α :=
  run (E.onClone source) fun
    | some made => .cloned source made
    | none => .cloneFaulted source

/-- Makes what an element becomes when a clone of `source` overwrites it, or leaves `left` there. -/
def makeOver (old source left : α) : Act (World σ α) α :=
  run (E.onOverwrite old source) fun
    | some made => .overwritten old source made
    | none => @Event.overwriteFaulted _ old source left

/-- Overwrites an element, in its place, by a clone of `source`. -/
def overwrite (source : α) : Act (α × World σ α) Unit := do
  let old ← Act.held
  let left ← Act.inWorld do
    let w ← Act.get
    return E.remains old source w.code
  let made ← (Act.inWorld (E.makeOver old source left)).onFault (Act.hold left)
  Act.hold made

/-- Makes a default element. -/
def default : Act (World σ α) α :=
  run E.onDefault fun
    | some made => .defaulted made
    | none => .defaultFaulted

/-- Drops an element.  While a fault is unwinding, the drop cannot fault. -/
def drop (unwinding : Bool) (element : α) : Act (World σ α) Unit := do
  let w ← Act.get
  let (result, after) := E.onDrop element w.code
  Act.modify fun w => { w with code := after }
  match unwinding, result with
  | false, .error message =>
    World.record (.dropped element true)
    Act.fault (.raised message)
  | _, _ => World.record (.dropped element false)

/-- Drops elements front to back.  When one of them faults, the others are dropped while it unwinds. -/
def dropAll (unwinding : Bool) : List α → Act (World σ α) Unit
  | [] => return
  | x :: xs => (E.drop unwinding x).ensuring fun faulted => dropAll (unwinding || faulted) xs

/-- Overwrites elements without code of their own for that: a clone takes the place of the old element, which
is dropped, and the clone stays there also when that drop faults. -/
def overwritingByClone : Element σ α :=
  { E with
    onOverwrite := fun old source code =>
      match E.onClone source code with
      | (.error message, code) => (.error message, code)
      | (.ok made, code) =>
        match E.onDrop old code with
        | (.ok (), code) => (.ok made, code)
        | (.error message, code) => (.error message, code)
    remains := fun old source code =>
      match E.onClone source code with
      | (.error _, _) => old
      | (.ok made, _) => made }

/-- Elements without code of their own: a clone is the element itself, and nothing faults. -/
def plain (shape : Shape) (default : α) : Element Unit α where
  toShape := shape
  onClone x s := (.ok x, s)
  onOverwrite _ x s := (.ok x, s)
  remains old _ _ := old
  onDefault s := (.ok default, s)
  onDrop _ s := (.ok (), s)

end Element

end Growable
