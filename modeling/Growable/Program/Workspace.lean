import Growable.Program.Command

/-!
# Workspaces

A workspace holds the registers of a program and the world around them; `Workspace.run` performs a
command on it.  A program goes on after a refusal and after a fault, with whatever these left behind.

Two containers that take part in one command lie in different registers.

A container that is replaced in its register is disposed of only after the command, and quietly: its
drops do not fault.
-/

namespace Growable

/-- What a register can hold. -/
inductive Container (α : Type) where
  | elements (s : Sequence α)
  | bits (s : BitSequence)

/-- Registers, some of them occupied, and the world around them. -/
structure Workspace (σ α : Type) where
  registers : List (Option (Container α))
  world : World σ α

/-- How a command ended. -/
inductive Response (α : Type) where
  | answer (a : Answer α)
  | refused (error : SequenceError)
  | faulted (fault : Fault)
  /-- An item to be read is not valid. -/
  | invalid
  /-- A register that the command needs does not hold what it needs. -/
  | vacant

variable {σ α : Type} (E : Element σ α)

/-- How a command ended, by the outcome of what it performed. -/
def Response.ofOutcome {S : Type} : Outcome S (Answer α) → Response α
  | .done a _ => answer a
  | .refused e _ => refused e
  | .faulted f _ => faulted f

/-- Disposes of a container; its drops do not fault. -/
def Container.dispose : Container α → Act (World σ α) Unit
  | elements s => s.dispose E true
  | bits s => s.dispose

/-- A copy of a container. -/
def Container.copy : Container α → Act (World σ α) (Container α)
  | elements s => return elements (← s.copy E)
  | bits s => return bits (← s.copy)

/-- A copy of a container that is taken for granted. -/
def Container.copyDemanded : Container α → Act (World σ α) (Container α)
  | elements s => return elements (← s.copyDemanded E)
  | bits s => return bits (← s.copyDemanded)

namespace Workspace

/-- The container in a register, if there is one. -/
def container? (ws : Workspace σ α) (a : Nat) : Option (Container α) := ws.registers[a]?.join

/-- The sequence in a register, if there is one. -/
def sequence? (ws : Workspace σ α) (a : Nat) : Option (Sequence α) :=
  match ws.container? a with
  | some (.elements s) => some s
  | _ => none

/-- The bit sequence in a register, if there is one. -/
def bitSequence? (ws : Workspace σ α) (a : Nat) : Option BitSequence :=
  match ws.container? a with
  | some (.bits s) => some s
  | _ => none

/-- The containers in two registers, if these are not one and the same and both are occupied. -/
def pair? (ws : Workspace σ α) (a b : Nat) : Option (Container α × Container α) :=
  if a = b then none
  else
    match ws.container? a, ws.container? b with
    | some c, some d => some (c, d)
    | _, _ => none

/-- Puts a container into a register, or empties it. -/
def put (ws : Workspace σ α) (a : Nat) (c : Option (Container α)) : Workspace σ α :=
  { ws with registers := ws.registers.set a c }

/-- Performs an act on the world alone. -/
def withWorld (ws : Workspace σ α) (act : Act (World σ α) (Answer α)) :
    Response α × Workspace σ α :=
  let outcome := act ws.world
  (.ofOutcome outcome, { ws with world := outcome.state })

/-- Performs an act on the sequence in a register. -/
def withSequence (ws : Workspace σ α) (a : Nat) (act : SequenceAct σ α (Answer α)) :
    Response α × Workspace σ α :=
  match ws.sequence? a with
  | none => (.vacant, ws)
  | some s =>
    let outcome := act (s, ws.world)
    let (s, world) := outcome.state
    (.ofOutcome outcome, { ws.put a (some (.elements s)) with world })

/-- Performs an act on the bit sequence in a register. -/
def withBits (ws : Workspace σ α) (a : Nat) (act : BitAct σ α (Answer α)) :
    Response α × Workspace σ α :=
  match ws.bitSequence? a with
  | none => (.vacant, ws)
  | some s =>
    let outcome := act (s, ws.world)
    let (s, world) := outcome.state
    (.ofOutcome outcome, { ws.put a (some (.bits s)) with world })

/-- Performs an act on the sequences in two registers. -/
def withSequences (ws : Workspace σ α) (a b : Nat)
    (act : Act ((Sequence α × Sequence α) × World σ α) (Answer α)) : Response α × Workspace σ α :=
  match a == b, ws.sequence? a, ws.sequence? b with
  | false, some s, some t =>
    let outcome := act ((s, t), ws.world)
    let ((s, t), world) := outcome.state
    (.ofOutcome outcome, { (ws.put a (some (.elements s))).put b (some (.elements t)) with world })
  | _, _, _ => (.vacant, ws)

/-- Performs an act on the bit sequences in two registers. -/
def withBitSequences (ws : Workspace σ α) (a b : Nat)
    (act : Act ((BitSequence × BitSequence) × World σ α) (Answer α)) : Response α × Workspace σ α :=
  match a == b, ws.bitSequence? a, ws.bitSequence? b with
  | false, some s, some t =>
    let outcome := act ((s, t), ws.world)
    let ((s, t), world) := outcome.state
    (.ofOutcome outcome, { (ws.put a (some (.bits s))).put b (some (.bits t)) with world })
  | _, _, _ => (.vacant, ws)

/-- Puts a container that an act makes into a register, and comes to the one that it replaces. -/
def store (ws : Workspace σ α) (a : Nat) (act : Act (World σ α) (Option (Container α))) :
    Response α × Option (Container α) × Workspace σ α :=
  if a < ws.registers.length then
    match act ws.world with
    | .done (some c) world => (.answer .nothing, ws.container? a, { ws.put a (some c) with world })
    | .done none world => (.invalid, none, { ws with world })
    | .refused e world => (.refused e, none, { ws with world })
    | .faulted f world => (.faulted f, none, { ws with world })
  else
    (.vacant, none, ws)

/-- Takes the container out of a register, and performs the act that uses it up. -/
def consume (ws : Workspace σ α) (a : Nat)
    (act : Container α → Option (Act (World σ α) (Answer α))) : Response α × Workspace σ α :=
  match (ws.container? a).bind act with
  | none => (.vacant, ws)
  | some act => (ws.put a none).withWorld act

/-- Takes a sequence apart move by move, then disposes of what is left. -/
def drainAll (moves : List DrainMove) (s : Sequence α) : Act (World σ α) (Answer α) := do
  let (d, answers) ← Act.owning (Drain.of s) (fun unwinding d => d.dispose E unwinding)
    (moves.mapM DrainMove.perform)
  d.dispose E false
  return .drained answers

/-- Uses a container up by disposing of it. -/
def discardOne : Container α → Act (World σ α) (Answer α)
  | .elements s => do s.dispose E false; return .nothing
  | .bits s => do s.dispose; return .nothing

/-- Performs a command, and comes to how it ended, and to a container that it replaced. -/
def perform (ws : Workspace σ α) :
    Command σ α → Response α × Option (Container α) × Workspace σ α
  | .create a recipe handle => ws.store a do
    return (← recipe.create E handle).map .elements
  | .createBits a recipe handle => ws.store a do
    return (← recipe.createBits handle).map .bits
  | .edit a e => keep (ws.withSequence a (e.perform E))
  | .editBits a e => keep (ws.withBits a e.perform)
  | .copy a b =>
    match ws.container? a with
    | none => (.vacant, none, ws)
    | some c => ws.store b do return some (← c.copy E)
  | .copyDemanded a b =>
    match ws.container? a with
    | none => (.vacant, none, ws)
    | some c => ws.store b do return some (← c.copyDemanded E)
  | .copyFrom a b =>
    match ws.pair? a b with
    | none => (.vacant, none, ws)
    | some (_, .elements t) => keep (ws.withSequence a do Sequence.copyFrom E t; return .nothing)
    | some (_, .bits t) => keep (ws.withBits a do BitSequence.copyFrom t; return .nothing)
  | .moveFrom a b =>
    match ws.pair? a b with
    | none => (.vacant, none, ws)
    | some (_, .elements _) =>
      keep (ws.withSequences a b do Sequence.moveFrom E; return .nothing)
    | some (_, .bits _) =>
      keep (ws.withBitSequences a b do BitSequence.moveFrom; return .nothing)
  | .discard a => keep (ws.consume a fun c => some (discardOne E c))
  | .drain a moves => keep (ws.consume a fun
    | .elements s => some (drainAll E moves s)
    | .bits _ => none)
  | .setPolicy place policy =>
    (.answer .nothing, none, { ws with world :=
      { ws.world with accounts := ws.world.accounts.modify place ({ · with policy }) } })
  | .setCode code => (.answer .nothing, none, { ws with world := { ws.world with code } })
where
  /-- No container was replaced. -/
  keep (ended : Response α × Workspace σ α) : Response α × Option (Container α) × Workspace σ α :=
    (ended.1, none, ended.2)

/-- Disposes of a container that was replaced, if there is one. -/
def settle (replaced : Option (Container α)) (ws : Workspace σ α) : Workspace σ α :=
  match replaced with
  | none => ws
  | some c => { ws with world := (c.dispose E ws.world).state }

/-- Performs a command, and disposes of a container that it replaced. -/
def run (ws : Workspace σ α) (command : Command σ α) : Response α × Workspace σ α :=
  let (response, replaced, ws) := ws.perform E command
  (response, ws.settle E replaced)

/-- Performs commands one after the other. -/
def runAll (ws : Workspace σ α) : List (Command σ α) → List (Response α) × Workspace σ α
  | [] => ([], ws)
  | command :: rest =>
    let (response, ws) := ws.run E command
    let (responses, ws) := runAll ws rest
    (response :: responses, ws)

/-- A workspace of empty registers, in a world where nothing has happened yet. -/
def initial (registers : Nat) (accounts : List Account) (code : σ) : Workspace σ α where
  registers := List.replicate registers none
  world := { accounts, issued := 0, trace := #[], code }

end Workspace

end Growable
