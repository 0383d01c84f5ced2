import Growable.Program.Workspace
import Growable.Proofs.Program.Containers
import Growable.Proofs.Sequence.Refinement

/-!
# Programs on plain lists

What a program does can be told on registers that hold plain lists.  Each command is an `Order` to such
registers, once as seen from the sequences (`Command.toElements`) and once from the bit sequences
(`Command.toBits`); a command for the one kind matters to the other only in that it may take a register
away.

`Step` says what may come of an order: where it is certain, one answer and one new state of the
registers, except that memory may be lacking.  `Runs` puts the steps of a program in a row.
-/

namespace Growable

variable {σ α γ : Type}

/-! ## Edits -/

/-- What an operation on a bit sequence does to a list. -/
def BitEdit.onList : BitEdit → ListAct Bool (Answer α)
  | reserve _ => return .nothing
  | reserveMore _ => return .nothing
  | shrink => return .nothing
  | push value => do ListAct.append [value]; return .nothing
  | pop => return .ofBit? (← ListAct.pop)
  | insert position value => do ListAct.insertAll position [value]; return .nothing
  | erase index => return .bit (← ListAct.erase index)
  | truncate n => do ListAct.truncate n; return .nothing
  | clear => do ListAct.assign []; return .nothing
  | resize n value => do ListAct.resize n value; return .nothing
  | insertCopies position count value => do
    ListAct.insertAll position (List.replicate count value)
    return .nothing
  | insertAll position values => do ListAct.insertAll position values; return .nothing
  | insertFeed position feed => do ListAct.insertFeed position feed; return .nothing
  | extendAll values => do ListAct.append values; return .nothing
  | extendFeed feed => do ListAct.appendFeed feed; return .nothing
  | eraseSpan span => do ListAct.eraseSpan span; return .nothing
  | assignCopies count value => do ListAct.assign (List.replicate count value); return .nothing
  | assignAll values => do ListAct.assign values; return .nothing
  | assignFeed feed => do ListAct.refill feed; return .nothing
  | get index => return .bit (← ListAct.pick index)
  | set index value => return .ofBit? (← ListAct.setBit index value)
  | change index changes => return .bits (← ListAct.changeBit index changes)

/-- What a lack of memory leaves of a list; where no memory is needed, there is no lack. -/
def BitEdit.LeftByLack (e : BitEdit) (before after : List Bool) : Prop :=
  match e with
  | pop | erase _ | truncate _ | clear | eraseSpan _ | get _ | set _ _ | change _ _ => False
  | assignFeed feed => ∃ n, after = feed.members.take n
  | _ => after = before

/-- What an operation on a sequence does to a list; `fresh` are the default elements, one after the
other. -/
def Edit.onList (fresh : Nat → α) : Edit α → ListAct α (Answer α)
  | reserve _ => return .nothing
  | reserveMore _ => return .nothing
  | shrink => return .nothing
  | push x => do ListAct.append [x]; return .nothing
  | pushBy maker => do ListAct.called (maker.calls 0 1) ListAct.append; return .nothing
  | pop => return .ofElement? (← ListAct.pop)
  | insert position x => do ListAct.insertAll position [x]; return .nothing
  | insertBy position maker => do ListAct.insertBy position (maker.calls 0 1); return .nothing
  | erase index => return .element (← ListAct.erase index)
  | truncate n => do ListAct.truncate n; return .nothing
  | clear => do ListAct.assign []; return .nothing
  | resize n x => do ListAct.resize n x; return .nothing
  | resizeDefault n => do
    ListAct.resizeBy n fun count => .ok ((List.range count).map fresh)
    return .nothing
  | resizeBy n maker => do ListAct.resizeBy n (maker.calls 0); return .nothing
  | insertCopies position count x => do
    ListAct.insertAll position (List.replicate count x)
    return .nothing
  | insertAll position xs => do ListAct.insertAll position xs; return .nothing
  | insertOwn position span => do ListAct.insertOwn position span; return .nothing
  | insertFeed position feed => do ListAct.insertFeed position feed; return .nothing
  | extendAll xs => do ListAct.append xs; return .nothing
  | extendFeed feed => do ListAct.appendFeed feed; return .nothing
  | eraseSpan span => do ListAct.eraseSpan span; return .nothing
  | assignCopies count x => do ListAct.assign (List.replicate count x); return .nothing
  | assignAll xs => do ListAct.assign xs; return .nothing
  | assignFeed feed => do ListAct.assignFeed feed; return .nothing
  | get index => return .element (← ListAct.pick index)
  | exchange index x => return .element (← ListAct.exchange index x)
  | demand index => return .element (← ListAct.demand index)
  | exchangeDemanded index x => return .element (← ListAct.exchangeDemanded index x)
  | carry x => return .element (← ListAct.carry x)

/-- What a lack of memory leaves of a list; where no memory is needed, there is no lack. -/
def Edit.LeftByLack (e : Edit α) (before after : List α) : Prop :=
  match e with
  | pop | erase _ | truncate _ | clear | eraseSpan _ => False
  | get _ | exchange _ _ | demand _ | exchangeDemanded _ _ | carry _ => False
  | assignFeed feed => ∃ n, after = feed.members.take n
  | _ => after = before

/-! ## Orders -/

/-- What a command is to registers of lists. -/
inductive Order (γ α : Type) where
  /-- Makes a list of these members, unless one of them is not valid, or they cannot be read without a
  fault. -/
  | make (a : Nat) (members : Except String (Option (List γ)))
  /-- Does one of some operations to a list; `left` says what a lack of memory leaves of it. -/
  | edit (a : Nat) (acts : ListAct γ (Answer α) → Prop) (left : List γ → List γ → Prop)
  | copy (a b : Nat)
  | copyDemanded (a b : Nat)
  | copyFrom (a b : Nat)
  | moveFrom (a b : Nat)
  | discard (a : Nat)
  | drain (a : Nat)
  /-- Another kind of container may come into a register. -/
  | displace (a : Nat)
  /-- No list is concerned. -/
  | leave

/-- What a command is to the sequences. -/
def Command.toElements (E : Element σ α) : Command σ α → Order α α
  | create a recipe _ => .make a recipe.members
  | createBits a _ _ => .displace a
  | edit a e => .edit a
    (fun act => ∃ fresh, (∀ k, CanYield E.onDefault (fresh k)) ∧ act = e.onList fresh) e.LeftByLack
  | editBits _ _ => .leave
  | copy a b => .copy a b
  | copyDemanded a b => .copyDemanded a b
  | copyFrom a b => .copyFrom a b
  | moveFrom a b => .moveFrom a b
  | discard a => .discard a
  | drain a _ => .drain a
  | setPolicy _ _ => .leave
  | setCode _ => .leave

/-- What a command is to the bit sequences. -/
def Command.toBits : Command σ α → Order Bool α
  | create a _ _ => .displace a
  | createBits a recipe _ => .make a recipe.members
  | edit _ _ => .leave
  | editBits a e => .edit a (· = e.onList) e.LeftByLack
  | copy a b => .copy a b
  | copyDemanded a b => .copyDemanded a b
  | copyFrom a b => .copyFrom a b
  | moveFrom a b => .moveFrom a b
  | discard a => .discard a
  | drain _ _ => .leave
  | setPolicy _ _ => .leave
  | setCode _ => .leave

/-! ## Steps -/

/-- The response to an operation on a list, and the list it leaves: those of the operation itself, unless
memory is lacking for an operation that is not refused anyway. -/
inductive Follows (outcome : Outcome (List γ) (Answer α)) (left : List γ → Prop) :
    Response α → List γ → Prop
  | done {answer : Answer α} {ys : List γ} (h : outcome = .done answer ys) :
      Follows outcome left (.answer answer) ys
  | refused {e : SequenceError} {ys : List γ} (h : outcome = .refused e ys) :
      Follows outcome left (.refused e) ys
  | lack {e : SequenceError} {ys : List γ} (he : e.IsLack) (h : outcome.Accepted) (hys : left ys) :
      Follows outcome left (.refused e) ys
  | faulted {f : Fault} {ys : List γ} (h : outcome = .faulted f ys) :
      Follows outcome left (.faulted f) ys

/-- Registers, some of which hold a list. -/
abbrev Lists (γ : Type) := List (Option (List γ))

/-- What may come of an order: a response and a new state of the registers. -/
inductive Step (ls : Lists γ) : Order γ α → Response α → Lists γ → Prop
  | made {a : Nat} {ys : List γ} (ha : a < ls.length) :
      Step ls (.make a (.ok (some ys))) (.answer .nothing) (ls.set a (some ys))
  | invalid {a : Nat} (ha : a < ls.length) : Step ls (.make a (.ok none)) .invalid ls
  | makeRaised {a : Nat} {message : String} (ha : a < ls.length) :
      Step ls (.make a (.error message)) (.faulted (.raised message)) ls
  | makeLack {a : Nat} {members : Except String (Option (List γ))} {e : SequenceError}
      (ha : a < ls.length) (he : e.IsLack) : Step ls (.make a members) (.refused e) ls
  | makeVacant {a : Nat} {members : Except String (Option (List γ))} (ha : ¬ a < ls.length) :
      Step ls (.make a members) .vacant ls
  | edited {a : Nat} {acts : ListAct γ (Answer α) → Prop} {left : List γ → List γ → Prop}
      {act : ListAct γ (Answer α)} {xs ys : List γ} {response : Response α}
      (ha : ls[a]?.join = some xs) (hact : acts act)
      (h : Follows (act xs) (left xs) response ys) :
      Step ls (.edit a acts left) response (ls.set a (some ys))
  | editVacant {a : Nat} {acts : ListAct γ (Answer α) → Prop} {left : List γ → List γ → Prop}
      (ha : ls[a]?.join = none) : Step ls (.edit a acts left) .vacant ls
  | copied {a b : Nat} {xs : List γ} {response : Response α} {ls' : Lists γ}
      (ha : ls[a]?.join = some xs) (h : Step ls (.make b (.ok (some xs))) response ls') :
      Step ls (.copy a b) response ls'
  | copyOther {a b : Nat} {response : Response α} {ls' : Lists γ} (ha : ls[a]?.join = none)
      (h : Step ls (.displace b) response ls') : Step ls (.copy a b) response ls'
  | copiedDemanded {a b : Nat} {response : Response α} {ls' : Lists γ}
      (h : Step ls (.copy a b) response ls') : Step ls (.copyDemanded a b) response ls'
  | copyFaulted {a b : Nat} {e : SequenceError} (hb : b < ls.length) (he : e.IsLack) :
      Step ls (.copyDemanded a b) (.faulted (.copyRefused e)) ls
  /-- The contents of the second list are assigned to the first one. -/
  | copiedFrom {a b : Nat} {ys : List γ} {response : Response α} {ls' : Lists γ} (hne : a ≠ b)
      (hb : ls[b]?.join = some ys)
      (h : Step ls (.edit a (· = do ListAct.assign ys; return .nothing) fun xs zs => zs = xs)
        response ls') : Step ls (.copyFrom a b) response ls'
  | copyFromVacant {a b : Nat} (h : a = b ∨ ls[a]?.join = none ∨ ls[b]?.join = none) :
      Step ls (.copyFrom a b) .vacant ls
  | copyFromOther {a b : Nat} {response : Response α} (ha : ls[a]?.join = none)
      (hb : ls[b]?.join = none) : Step ls (.copyFrom a b) response ls
  | moved {a b : Nat} {xs ys : List γ} (hne : a ≠ b) (ha : ls[a]?.join = some xs)
      (hb : ls[b]?.join = some ys) :
      Step ls (.moveFrom a b) (.answer .nothing) ((ls.set a (some ys)).set b (some []))
  | moveLack {a b : Nat} {xs ys : List γ} {e : SequenceError} (hne : a ≠ b)
      (ha : ls[a]?.join = some xs) (hb : ls[b]?.join = some ys) (he : e.IsLack) :
      Step ls (.moveFrom a b) (.refused e) ls
  | moveVacant {a b : Nat} (h : a = b ∨ ls[a]?.join = none ∨ ls[b]?.join = none) :
      Step ls (.moveFrom a b) .vacant ls
  | moveOther {a b : Nat} {response : Response α} (ha : ls[a]?.join = none)
      (hb : ls[b]?.join = none) : Step ls (.moveFrom a b) response ls
  | discarded {a : Nat} {xs : List γ} (ha : ls[a]?.join = some xs) :
      Step ls (.discard a) (.answer .nothing) (ls.set a none)
  | discardOther {a : Nat} {response : Response α} (ha : ls[a]?.join = none) :
      Step ls (.discard a) response ls
  | drained {a : Nat} {xs : List γ} {moves : List (Option α × Drain α)}
      (ha : ls[a]?.join = some xs) : Step ls (.drain a) (.answer (.drained moves)) (ls.set a none)
  | drainVacant {a : Nat} (ha : ls[a]?.join = none) : Step ls (.drain a) .vacant ls
  | displaced {a : Nat} : Step ls (.displace a) (.answer .nothing) (ls.set a none)
  | kept {a : Nat} {response : Response α} (h : ∀ answer, response ≠ .answer answer) :
      Step ls (.displace a) response ls
  | left {response : Response α} : Step ls .leave response ls

/-- What may come of commands one after the other. -/
inductive Runs (order : Command σ α → Order γ α) :
    Lists γ → List (Command σ α) → List (Response α) → Lists γ → Prop
  | nil (ls : Lists γ) : Runs order ls [] [] ls
  | cons {ls ls' ls'' : Lists γ} {command : Command σ α} {commands : List (Command σ α)}
      {response : Response α} {responses : List (Response α)}
      (h : Step ls (order command) response ls') (hrest : Runs order ls' commands responses ls'') :
      Runs order ls (command :: commands) (response :: responses) ls''

end Growable
