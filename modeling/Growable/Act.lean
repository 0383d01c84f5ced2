import Growable.Fault

/-!
# Acts

An act works on a state.  It is done with a value, it is refused with an error, or it faults; whichever
it is, the state shows everything that was done until then.  Nothing is taken back by itself: what has to
be cleaned up on the way out is said by `onFault`, `onRefusal` and `ensuring`.

A fault that arises while another one unwinds is lost: the first fault is the one that goes on.
-/

namespace Growable

/-- How an act on a state of type `S` ends. -/
inductive Outcome (S β : Type) where
  /-- The act came to a value. -/
  | done (value : β) (state : S)
  /-- The act was refused. -/
  | refused (error : SequenceError) (state : S)
  /-- A fault unwinds through the act. -/
  | faulted (fault : Fault) (state : S)

/-- The state in which an act ended. -/
def Outcome.state {S β : Type} : Outcome S β → S
  | done _ s => s
  | refused _ s => s
  | faulted _ s => s

/-- An act on a state of type `S` that comes to a value of type `β`. -/
def Act (S β : Type) : Type := S → Outcome S β

namespace Act

variable {S T β δ : Type}

/-- Comes to a value, and leaves the state alone. -/
protected def pure (value : β) : Act S β := fun s => .done value s

/-- Continues an act that is done; a refusal or a fault ends the whole. -/
protected def bind (act : Act S β) (next : β → Act S δ) : Act S δ := fun s =>
  match act s with
  | .done b s => next b s
  | .refused e s => .refused e s
  | .faulted f s => .faulted f s

instance : Monad (Act S) where
  pure := Act.pure
  bind := Act.bind

/-- Refuses with an error. -/
def refuse (error : SequenceError) : Act S β := fun s => .refused error s

/-- Faults. -/
def fault (fault : Fault) : Act S β := fun s => .faulted fault s

/-- Comes to the state. -/
def get : Act S S := fun s => .done s s

/-- Changes the state. -/
def modify (change : S → S) : Act S Unit := fun s => .done () (change s)

/-- Comes to the value of a computation, or is refused with its error. -/
def ofExcept (result : Except SequenceError β) : Act S β :=
  match result with
  | .ok b => .done b
  | .error e => .refused e

/-- Comes to the value, which exists if the check holds. -/
def ofOption (check : Check) (value : Option β) : Act S β :=
  match value with
  | some b => .done b
  | none => .faulted (.broken check)

/-- Goes on only while an invariant holds. -/
def require (holds : Prop) [Decidable holds] (check : Check) : Act S Unit := fun s =>
  if holds then .done () s else .faulted (.broken check) s

/-- Runs `cleanup` when `act` faults, and lets the fault go on. -/
def onFault (act : Act S β) (cleanup : Act S Unit) : Act S β := fun s =>
  match act s with
  | .faulted f s => .faulted f (cleanup s).state
  | outcome => outcome

/-- Runs `cleanup` when `act` is refused, and lets the refusal go on unless the cleanup faults. -/
def onRefusal (act : Act S β) (cleanup : Act S Unit) : Act S β := fun s =>
  match act s with
  | .refused e s => (cleanup.bind fun _ => refuse e) s
  | outcome => outcome

/-- Runs `last` however `act` ends, and tells it whether a fault is unwinding. -/
def ensuring (act : Act S β) (last : Bool → Act S Unit) : Act S β := fun s =>
  match act s with
  | .done b s => ((last false).bind fun _ => Act.pure b) s
  | .refused e s => ((last false).bind fun _ => refuse e) s
  | .faulted f s => .faulted f (last true s).state

/-- Runs an act on the second part of a state, the world around the first. -/
def inWorld (act : Act T β) : Act (S × T) β := fun (s, t) =>
  match act t with
  | .done b t => .done b (s, t)
  | .refused e t => .refused e (s, t)
  | .faulted f t => .faulted f (s, t)

/-- Comes to the first part of a state. -/
def held : Act (S × T) S := fun s => .done s.1 s

/-- Replaces the first part of a state. -/
def hold (part : S) : Act (S × T) Unit := fun s => .done () (part, s.2)

/-- Runs an act that knows only the first of two things at hand. -/
def onFirst {R : Type} (act : Act (S × T) β) : Act ((S × R) × T) β := fun ((s, r), t) =>
  match act (s, t) with
  | .done b (s, t) => .done b ((s, r), t)
  | .refused e (s, t) => .refused e ((s, r), t)
  | .faulted f (s, t) => .faulted f ((s, r), t)

/-- Runs an act that knows only the second of two things at hand. -/
def onSecond {R : Type} (act : Act (S × T) β) : Act ((R × S) × T) β := fun ((r, s), t) =>
  match act (s, t) with
  | .done b (s, t) => .done b ((r, s), t)
  | .refused e (s, t) => .refused e ((r, s), t)
  | .faulted f (s, t) => .faulted f ((r, s), t)

/-- Runs an act that owns a part `start` of its state.  If it is done, the part is handed over beside the
value; otherwise the part is discarded, and `discard` is told whether a fault is unwinding. -/
def owning (start : S) (discard : Bool → S → Act T Unit) (act : Act (S × T) β) : Act T (S × β) :=
  fun t =>
    match act (start, t) with
    | .done b (s, t) => .done (s, b) t
    | .refused e (s, t) => ((discard false s).bind fun _ => refuse e) t
    | .faulted f (s, t) => .faulted f (discard true s t).state

end Act

end Growable
