import Growable.Proofs.Checked.BitAssignment
import Growable.Proofs.Checked.Transfer
import Growable.Proofs.Program.Capacity

/-!
# Programs, checked

Commands with all that they compute.  A command stops, without a response, as soon as one of the operations
that it consists of does, also where it cleans up after a fault, and where it disposes of a container that was
replaced.  No command of a program ever does (`Workspace.Counted.runAllChecked_eq`).
-/

namespace Growable

open Checked

variable {σ α β S R : Type} {E : Element σ α}

/-! ## Operations -/

/-- Performs an operation on a sequence. -/
def Edit.performChecked (E : Element σ α) : Edit α → Checked (Sequence α × World σ α) (Answer α)
  | reserve capacity => do Sequence.reserveChecked E capacity; return .nothing
  | reserveMore additional => do Sequence.reserveMoreChecked E additional; return .nothing
  | shrink => do Sequence.shrinkChecked E; return .nothing
  | push x => do Sequence.pushChecked E x; return .nothing
  | pushBy maker => do Sequence.pushByChecked E (ofAct (maker.call 0)); return .nothing
  | pop => return .ofElement? (← Sequence.popChecked)
  | insert position x => do Sequence.insertChecked E position x; return .nothing
  | insertBy position maker => do
    Sequence.insertByChecked E position (ofAct (maker.call 0))
    return .nothing
  | erase index => return .element (← Sequence.eraseChecked index)
  | truncate n => do Sequence.truncateChecked E n; return .nothing
  | clear => do Sequence.truncateChecked E 0; return .nothing
  | resize n x => do Sequence.resizeChecked E n x; return .nothing
  | resizeDefault n => do Sequence.resizeDefaultChecked E n; return .nothing
  | resizeBy n maker => do Sequence.resizeByChecked E n maker; return .nothing
  | insertCopies position count x => do Sequence.insertCopiesChecked E position count x; return .nothing
  | insertAll position xs => do Sequence.insertAllChecked E position xs; return .nothing
  | insertOwn position span => do Sequence.insertOwnChecked E position span; return .nothing
  | insertFeed position feed => do Sequence.insertFeedChecked E position feed; return .nothing
  | extendAll xs => do Sequence.extendAllChecked E xs; return .nothing
  | extendFeed feed => do Sequence.extendFeedChecked E feed; return .nothing
  | eraseSpan span => do Sequence.eraseSpanChecked E span; return .nothing
  | assignCopies count x => do Sequence.assignCopiesChecked E count x; return .nothing
  | assignAll xs => do Sequence.assignAllChecked E xs; return .nothing
  | assignFeed feed => do Sequence.assignFeedChecked E feed; return .nothing
  | get index => do
    let s ← ofAct Act.held
    return .element (← s.accessChecked index)
  | exchange index x => return .element (← Sequence.exchangeChecked index x)
  | demand index => return .element (← Sequence.demandChecked index)
  | exchangeDemanded index x => return .element (← Sequence.exchangeDemandedChecked index x)
  | carry x => return .element (← ofAct (Sequence.carry x))

/-- Performs an operation on a bit sequence. -/
def BitEdit.performChecked : BitEdit → Checked (BitSequence × World σ α) (Answer α)
  | reserve capacity => do BitSequence.reserveChecked capacity; return .nothing
  | reserveMore additional => do BitSequence.reserveMoreChecked additional; return .nothing
  | shrink => do BitSequence.shrinkChecked; return .nothing
  | push value => do BitSequence.pushChecked value; return .nothing
  | pop => return .ofBit? (← BitSequence.popChecked)
  | insert position value => do BitSequence.insertChecked position value; return .nothing
  | erase index => return .bit (← BitSequence.eraseChecked index)
  | truncate n => do BitSequence.truncateChecked n; return .nothing
  | clear => do BitSequence.truncateChecked 0; return .nothing
  | resize n value => do BitSequence.resizeChecked n value; return .nothing
  | insertCopies position count value => do
    BitSequence.insertCopiesChecked position count value
    return .nothing
  | insertAll position values => do BitSequence.insertAllChecked position values; return .nothing
  | insertFeed position feed => do BitSequence.insertFeedChecked position feed; return .nothing
  | extendAll values => do BitSequence.extendAllChecked values; return .nothing
  | extendFeed feed => do BitSequence.extendFeedChecked feed; return .nothing
  | eraseSpan span => do BitSequence.eraseSpanChecked span; return .nothing
  | assignCopies count value => do BitSequence.assignCopiesChecked count value; return .nothing
  | assignAll values => do BitSequence.assignAllChecked values; return .nothing
  | assignFeed feed => do BitSequence.assignFeedChecked feed; return .nothing
  | get index => return .bit (← BitSequence.getChecked index)
  | set index value => return .ofBit? (← BitSequence.setChecked index value)
  | change index changes => return .bits (← BitSequence.changeChecked index changes)

/-- Creates a sequence; nothing comes of it if an item is not valid. -/
def Recipe.createChecked (E : Element σ α) (handle : Handle) :
    Recipe α → Checked (World σ α) (Option (Sequence α))
  | empty => return some (.empty handle)
  | withCapacity capacity => return some (← Sequence.withCapacityChecked E capacity handle)
  | replicate count x => return some (← Sequence.replicateChecked E count x handle)
  | ofList xs => return some (← Sequence.ofListChecked E xs handle)
  | read hint items => Sequence.readChecked E hint items handle

/-- Creates a bit sequence; nothing comes of it if an item is not valid. -/
def Recipe.createBitsChecked (handle : Handle) : Recipe Bool → Checked (World σ α) (Option BitSequence)
  | empty => return some (.empty handle)
  | withCapacity capacity => return some (← BitSequence.withCapacityChecked capacity handle)
  | replicate count value => return some (← BitSequence.replicateChecked count value handle)
  | ofList values => return some (← BitSequence.ofListChecked values handle)
  | read hint items => BitSequence.readChecked hint items handle

namespace Container

/-- Disposes of a container; its drops do not fault. -/
def disposeChecked (E : Element σ α) : Container α → Checked (World σ α) Unit
  | elements s => s.disposeChecked E true
  | bits s => s.disposeChecked

/-- A copy of a container. -/
def copyChecked (E : Element σ α) : Container α → Checked (World σ α) (Container α)
  | elements s => return elements (← s.copyChecked E)
  | bits s => return bits (← s.copyChecked)

/-- A copy of a container that is taken for granted. -/
def copyDemandedChecked (E : Element σ α) : Container α → Checked (World σ α) (Container α)
  | elements s => return elements (← s.copyDemandedChecked E)
  | bits s => return bits (← s.copyDemandedChecked)

/-- Uses a container up by disposing of it. -/
def discardChecked (E : Element σ α) : Container α → Checked (World σ α) (Answer α)
  | elements s => do s.disposeChecked E false; return .nothing
  | bits s => do s.disposeChecked; return .nothing

end Container

/-! ## Commands -/

/-- The act that has an outcome whatever the state is. -/
def Act.ending (outcome : Outcome S β) : Act S β := fun _ => outcome

/-- What is made of the outcome of an act in a state, unless the act stops. -/
def Checked.within (checked : Checked S β) (s : S) (use : Act S β → R) : Option R :=
  (checked s).map fun outcome => use (Act.ending outcome)

namespace Workspace

variable (E)

/-- Performs an act on the sequence in a register. -/
def withSequenceChecked (ws : Workspace σ α) (a : Nat)
    (act : Checked (Sequence α × World σ α) (Answer α)) : Option (Response α × Workspace σ α) :=
  match ws.sequence? a with
  | none => some (.vacant, ws)
  | some s => act.within (s, ws.world) (ws.withSequence a)

/-- Performs an act on the bit sequence in a register. -/
def withBitsChecked (ws : Workspace σ α) (a : Nat)
    (act : Checked (BitSequence × World σ α) (Answer α)) : Option (Response α × Workspace σ α) :=
  match ws.bitSequence? a with
  | none => some (.vacant, ws)
  | some s => act.within (s, ws.world) (ws.withBits a)

/-- Performs an act on the sequences in two registers. -/
def withSequencesChecked (ws : Workspace σ α) (a b : Nat)
    (act : Checked ((Sequence α × Sequence α) × World σ α) (Answer α)) :
    Option (Response α × Workspace σ α) :=
  match a == b, ws.sequence? a, ws.sequence? b with
  | false, some s, some t => act.within ((s, t), ws.world) (ws.withSequences a b)
  | _, _, _ => some (.vacant, ws)

/-- Performs an act on the bit sequences in two registers. -/
def withBitSequencesChecked (ws : Workspace σ α) (a b : Nat)
    (act : Checked ((BitSequence × BitSequence) × World σ α) (Answer α)) :
    Option (Response α × Workspace σ α) :=
  match a == b, ws.bitSequence? a, ws.bitSequence? b with
  | false, some s, some t => act.within ((s, t), ws.world) (ws.withBitSequences a b)
  | _, _, _ => some (.vacant, ws)

/-- Puts a container that an act makes into a register, and comes to the one that it replaces. -/
def storeChecked (ws : Workspace σ α) (a : Nat) (act : Checked (World σ α) (Option (Container α))) :
    Option (Response α × Option (Container α) × Workspace σ α) :=
  if a < ws.registers.length then act.within ws.world (ws.store a)
  else some (.vacant, none, ws)

/-- Takes the container out of a register, and performs the act that uses it up. -/
def consumeChecked (ws : Workspace σ α) (a : Nat)
    (act : Container α → Option (Checked (World σ α) (Answer α))) : Option (Response α × Workspace σ α) :=
  match (ws.container? a).bind act with
  | none => some (.vacant, ws)
  | some act => act.within ws.world (ws.put a none).withWorld

/-- Performs a command, and comes to how it ended, and to a container that it replaced. -/
def performChecked (ws : Workspace σ α) :
    Command σ α → Option (Response α × Option (Container α) × Workspace σ α)
  | .create a recipe handle => ws.storeChecked a do
    return (← recipe.createChecked E handle).map .elements
  | .createBits a recipe handle => ws.storeChecked a do
    return (← recipe.createBitsChecked handle).map .bits
  | .edit a e => (ws.withSequenceChecked a (e.performChecked E)).map perform.keep
  | .editBits a e => (ws.withBitsChecked a e.performChecked).map perform.keep
  | .copy a b =>
    match ws.container? a with
    | none => some (.vacant, none, ws)
    | some c => ws.storeChecked b do return some (← c.copyChecked E)
  | .copyDemanded a b =>
    match ws.container? a with
    | none => some (.vacant, none, ws)
    | some c => ws.storeChecked b do return some (← c.copyDemandedChecked E)
  | .copyFrom a b =>
    match ws.pair? a b with
    | none => some (.vacant, none, ws)
    | some (_, .elements t) => (ws.withSequenceChecked a do
      Sequence.copyFromChecked E t
      return .nothing).map perform.keep
    | some (_, .bits t) => (ws.withBitsChecked a do
      BitSequence.copyFromChecked t
      return .nothing).map perform.keep
  | .moveFrom a b =>
    match ws.pair? a b with
    | none => some (.vacant, none, ws)
    | some (_, .elements _) => (ws.withSequencesChecked a b do
      Sequence.moveFromChecked E
      return .nothing).map perform.keep
    | some (_, .bits _) => (ws.withBitSequencesChecked a b do
      BitSequence.moveFromChecked
      return .nothing).map perform.keep
  | .discard a => (ws.consumeChecked a fun c => some (c.discardChecked E)).map perform.keep
  | .drain a moves => (ws.consumeChecked a fun
    | .elements s => some (Drain.drainAllChecked E moves s)
    | .bits _ => none).map perform.keep
  | .setPolicy place policy => some (ws.perform E (.setPolicy place policy))
  | .setCode code => some (ws.perform E (.setCode code))

/-- Disposes of a container that was replaced, if there is one. -/
def settleChecked (replaced : Option (Container α)) (ws : Workspace σ α) : Option (Workspace σ α) :=
  match replaced with
  | none => some ws
  | some c => (c.disposeChecked E ws.world).map fun outcome => { ws with world := outcome.state }

/-- Performs a command, and disposes of a container that it replaced. -/
def runChecked (ws : Workspace σ α) (command : Command σ α) : Option (Response α × Workspace σ α) := do
  let (response, replaced, ws) ← ws.performChecked E command
  let ws ← ws.settleChecked E replaced
  return (response, ws)

/-- Performs commands one after the other. -/
def runAllChecked (ws : Workspace σ α) : List (Command σ α) → Option (List (Response α) × Workspace σ α)
  | [] => some ([], ws)
  | command :: rest => do
    let (response, ws) ← ws.runChecked E command
    let (responses, ws) ← runAllChecked ws rest
    return (response :: responses, ws)

end Workspace

/-! ## No operation stops -/

section Operations

variable {w : World σ α} {m : Multiset (Asset α)}

open Sequence in
/-- **Step.**  An operation on a sequence in custody breaks no check. -/
theorem Edit.runs_perform {s : Sequence α} (e : Edit α) (hfits : E.toShape.Fits)
    (h : Sequence.Counted E m (s, w)) : (e.performChecked E).Runs (e.perform E) (s, w) := by
  have hs := h.countable
  cases e with
  | reserve capacity => exact runs_answered _ (runs_reserve hfits hs capacity)
  | reserveMore additional => exact runs_answered _ (runs_reserveMore hfits hs additional)
  | shrink => exact runs_answered _ (runs_shrink hfits hs)
  | push x => exact runs_answered _ (runs_push hfits hs x)
  | pushBy maker => exact runs_answered _ (runs_pushBy hfits hs fun w => runs_ofAct _ w)
  | pop => exact runs_answered _ (runs_pop hs)
  | insert position x => exact runs_answered _ (runs_insert hfits hs position x)
  | insertBy position maker => exact runs_answered _ (runs_insertBy hfits hs position fun w => runs_ofAct _ w)
  | erase index => exact runs_answered _ (runs_erase hs index)
  | truncate n => exact runs_answered _ (runs_truncate hs n)
  | clear => exact runs_answered _ (runs_truncate hs 0)
  | resize n x => exact runs_answered _ (runs_resize hfits hs n x)
  | resizeDefault n => exact runs_answered _ (runs_resizeDefault hfits hs n)
  | resizeBy n maker => exact runs_answered _ (runs_resizeBy hfits hs n maker)
  | insertCopies position count x => exact runs_answered _ (runs_insertCopies hfits hs position count x)
  | insertAll position xs => exact runs_answered _ (runs_insertAll hfits hs position xs)
  | insertOwn position span => exact runs_answered _ (runs_insertOwn hfits hs position span)
  | insertFeed position feed => exact runs_answered _ (runs_insertFeed hfits h position feed)
  | extendAll xs => exact runs_answered _ (runs_extendAll hfits hs xs)
  | extendFeed feed => exact runs_answered _ (runs_extendFeed hfits h feed)
  | eraseSpan span => exact runs_answered _ (runs_eraseSpan hs span)
  | assignCopies count x => exact runs_answered _ (runs_assignCopies hfits hs count x)
  | assignAll xs => exact runs_answered _ (runs_assignAll hfits hs xs)
  | assignFeed feed => exact runs_answered _ (runs_assignFeed hfits h feed)
  | get index => exact runs_held (runs_access fun x _ => runs_pure _ _)
  | exchange index x => exact runs_answered _ (runs_exchange index x)
  | demand index => exact runs_answered _ (runs_demand index)
  | exchangeDemanded index x => exact runs_answered _ (runs_exchangeDemanded index x)
  | carry x => exact runs_answered _ (runs_ofAct _ _)

open BitSequence in
/-- **Step.**  An operation on a bit sequence in custody breaks no check. -/
theorem BitEdit.runs_perform {s : BitSequence} (e : BitEdit) (h : BitSequence.Counted m (s, w)) :
    (e.performChecked : Checked (BitSequence × World σ α) _).Runs e.perform (s, w) := by
  cases e with
  | reserve capacity => exact runs_answered _ (runs_reserve h capacity)
  | reserveMore additional => exact runs_answered _ (runs_reserveMore h additional)
  | shrink => exact runs_answered _ (runs_shrink h.sound.valid)
  | push value => exact runs_answered _ (runs_push h value)
  | pop => exact runs_answered _ (runs_pop h.sound)
  | insert position value => exact runs_answered _ (runs_insert h position value)
  | erase index => exact runs_answered _ (runs_erase h index)
  | truncate n => exact runs_answered _ (h.runs_truncate n)
  | clear => exact runs_answered _ (h.runs_truncate 0)
  | resize n value => exact runs_answered _ (runs_resize h n value)
  | insertCopies position count value => exact runs_answered _ (runs_insertCopies h position count value)
  | insertAll position values => exact runs_answered _ (runs_insertAll h position values)
  | insertFeed position feed => exact runs_answered _ (runs_insertFeed h position feed)
  | extendAll values => exact runs_answered _ (runs_extendAll h values)
  | extendFeed feed => exact runs_answered _ (runs_extendFeed h feed)
  | eraseSpan span => exact runs_answered _ (runs_eraseSpan h span)
  | assignCopies count value => exact runs_answered _ (runs_assignCopies h count value)
  | assignAll values => exact runs_answered _ (runs_assignAll h values)
  | assignFeed feed => exact runs_answered _ (runs_assignFeed h feed)
  | get index => exact runs_answered _ (runs_get h.sound index)
  | set index value => exact runs_answered _ (runs_set h.sound index value)
  | change index changes => exact runs_answered _ (runs_change h.sound index changes)

open Sequence in
/-- A sequence is created without breaking a check. -/
theorem Recipe.runs_create (recipe : Recipe α) (handle : Handle) (hfits : E.toShape.Fits) (h : w.Owns m) :
    (recipe.createChecked E handle).Runs (recipe.create E handle) w := by
  cases recipe with
  | empty => exact runs_pure _ w
  | withCapacity capacity => exact runs_answered some (runs_withCapacity hfits capacity handle h)
  | replicate count x => exact runs_answered some (runs_replicate hfits count x handle)
  | ofList xs => exact runs_answered some (runs_ofList hfits xs handle h)
  | read hint items => exact runs_read hfits hint items handle h

open BitSequence in
/-- A bit sequence is created without breaking a check. -/
theorem Recipe.runs_createBits (recipe : Recipe Bool) (handle : Handle) (h : w.Owns m) :
    (recipe.createBitsChecked handle).Runs (recipe.createBits handle) w := by
  cases recipe with
  | empty => exact runs_pure _ w
  | withCapacity capacity => exact runs_answered some (runs_withCapacity capacity handle h)
  | replicate count value => exact runs_answered some (runs_replicate count value handle h)
  | ofList values => exact runs_answered some (runs_ofList values handle h)
  | read hint items => exact runs_read hint items handle h

namespace Container

variable {c : Container α} (hfits : E.toShape.Fits)

include hfits

/-- A valid container is disposed of without breaking a check. -/
theorem runs_dispose (hc : c.Valid E) : (c.disposeChecked E).Runs (c.dispose E) w := by
  cases c with
  | elements s => exact Sequence.runs_dispose hfits hc true
  | bits s => exact BitSequence.runs_dispose hc

/-- A valid container is used up without breaking a check. -/
theorem runs_discard (hc : c.Valid E) : (c.discardChecked E).Runs (Workspace.discardOne E c) w := by
  cases c with
  | elements s => exact runs_answered _ (Sequence.runs_dispose hfits hc false)
  | bits s => exact runs_answered _ (BitSequence.runs_dispose hc)

variable (hc : c.Valid E) (hcounted : c.Counted)

include hc hcounted

/-- A container is copied without breaking a check. -/
theorem runs_copy : (c.copyChecked E).Runs (c.copy E) w := by
  cases c with
  | elements s =>
      exact runs_answered _ (Sequence.runs_copy hfits (hc.len_le.trans hcounted))
  | bits s => exact runs_answered _ (BitSequence.runs_copy hc)

theorem runs_copyDemanded : (c.copyDemandedChecked E).Runs (c.copyDemanded E) w := by
  cases c with
  | elements s =>
      exact runs_answered _ (Sequence.runs_copyDemanded hfits (hc.len_le.trans hcounted))
  | bits s => exact runs_answered _ (BitSequence.runs_copyDemanded hc)

end Container

/-- The moves of a drain, and giving up what they leave, break no check. -/
theorem Drain.runs_drainAll {s : Sequence α} (moves : List DrainMove) (hfits : E.toShape.Fits)
    (hs : s.Countable E) : (drainAllChecked E moves s).Runs (Workspace.drainAll E moves s) w := by
  refine (performAll_follows (bound_of hs) moves).owning fun d answers ends w' h => ?_
  exact runs_answered _ (runs_dispose hfits h false)

end Operations

/-! ## No command stops -/

/-- A checked act may stand for the plain one wherever only its ending matters. -/
theorem Checked.Runs.within {checked : Checked S β} {act : Act S β} {s : S} {use : Act S β → R}
    (h : checked.Runs act s) (huse : use (Act.ending (act s)) = use act) :
    checked.within s use = some (use act) := by
  rw [Checked.within, h, Option.map_some, huse]

namespace Workspace

variable {ws : Workspace σ α} {a b : Nat}

/-- A checked act on the sequence in a register does what the plain one does. -/
theorem withSequenceChecked_eq {checked : Checked (Sequence α × World σ α) (Answer α)}
    {act : SequenceAct σ α (Answer α)}
    (h : ∀ s, ws.container? a = some (.elements s) → checked.Runs act (s, ws.world)) :
    ws.withSequenceChecked a checked = some (ws.withSequence a act) := by
  unfold withSequenceChecked
  cases hs : ws.sequence? a with
  | none => rw [withSequence_of_none hs]
  | some s =>
      refine (h s (container?_of_sequence? hs)).within ?_
      exact (withSequence_of_some hs _).trans (withSequence_of_some hs act).symm

/-- A checked act on the bit sequence in a register does what the plain one does. -/
theorem withBitsChecked_eq {checked : Checked (BitSequence × World σ α) (Answer α)}
    {act : BitAct σ α (Answer α)}
    (h : ∀ s, ws.container? a = some (.bits s) → checked.Runs act (s, ws.world)) :
    ws.withBitsChecked a checked = some (ws.withBits a act) := by
  unfold withBitsChecked
  cases hs : ws.bitSequence? a with
  | none => rw [withBits_of_none hs]
  | some s =>
      refine (h s (container?_of_bitSequence? hs)).within ?_
      exact (withBits_of_some hs _).trans (withBits_of_some hs act).symm

/-- A checked act on the sequences in two registers does what the plain one does. -/
theorem withSequencesChecked_eq {checked : Checked ((Sequence α × Sequence α) × World σ α) (Answer α)}
    {act : Act ((Sequence α × Sequence α) × World σ α) (Answer α)}
    (h : ∀ s t, ws.container? a = some (.elements s) → ws.container? b = some (.elements t) →
      checked.Runs act ((s, t), ws.world)) :
    ws.withSequencesChecked a b checked = some (ws.withSequences a b act) := by
  unfold withSequencesChecked
  split
  · rename_i s t hne hs ht
    have hne' : a ≠ b := beq_eq_false_iff_ne.mp hne
    refine (h s t (container?_of_sequence? hs) (container?_of_sequence? ht)).within ?_
    exact (withSequences_of_some hne' hs ht _).trans (withSequences_of_some hne' hs ht act).symm
  · rename_i hnone
    unfold withSequences
    split
    · rename_i s t hne hs ht
      exact (hnone s t hne hs ht).elim
    · rfl

/-- A checked act on the bit sequences in two registers does what the plain one does. -/
theorem withBitSequencesChecked_eq
    {checked : Checked ((BitSequence × BitSequence) × World σ α) (Answer α)}
    {act : Act ((BitSequence × BitSequence) × World σ α) (Answer α)}
    (h : ∀ s t, ws.container? a = some (.bits s) → ws.container? b = some (.bits t) →
      checked.Runs act ((s, t), ws.world)) :
    ws.withBitSequencesChecked a b checked = some (ws.withBitSequences a b act) := by
  unfold withBitSequencesChecked
  split
  · rename_i s t hne hs ht
    have hne' : a ≠ b := beq_eq_false_iff_ne.mp hne
    refine (h s t (container?_of_bitSequence? hs) (container?_of_bitSequence? ht)).within ?_
    exact (withBitSequences_of_some hne' hs ht _).trans (withBitSequences_of_some hne' hs ht act).symm
  · rename_i hnone
    unfold withBitSequences
    split
    · rename_i s t hne hs ht
      exact (hnone s t hne hs ht).elim
    · rfl

/-- A container that a checked act makes is the one that the plain act makes. -/
theorem storeChecked_eq {checked : Checked (World σ α) (Option (Container α))}
    {act : Act (World σ α) (Option (Container α))} (h : checked.Runs act ws.world) :
    ws.storeChecked a checked = some (ws.store a act) := by
  unfold storeChecked
  by_cases ha : a < ws.registers.length
  · rw [if_pos ha]
    exact h.within rfl
  · rw [if_neg ha, store, if_neg ha]

/-- A checked act uses a container up as the plain one does. -/
theorem consumeChecked_eq {checked : Container α → Option (Checked (World σ α) (Answer α))}
    {act : Container α → Option (Act (World σ α) (Answer α))}
    (h : ∀ c, ws.container? a = some c → checked c = none ∧ act c = none ∨
      ∃ checked' act', checked c = some checked' ∧ act c = some act' ∧ checked'.Runs act' ws.world) :
    ws.consumeChecked a checked = some (ws.consume a act) := by
  unfold consumeChecked
  cases hc : ws.container? a with
  | none => rw [consume_of_none (by rw [hc]; rfl)]; rfl
  | some c =>
      rcases h c hc with ⟨hchecked, hact⟩ | ⟨checked', act', hchecked, hact, hruns⟩
      · rw [consume_of_none (by rw [hc]; exact hact), Option.bind_some, hchecked]
      · rw [consume_of_some hc hact, Option.bind_some, hchecked]
        exact hruns.within rfl

section Commands

variable (h : Counted E ws) (hfits : E.toShape.Fits)

include h hfits

/-- **Step.**  A command does not stop. -/
theorem Counted.performChecked_eq (command : Command σ α) :
    ws.performChecked E command = some (ws.perform E command) := by
  have howns : ws.world.Owns (ws.assets E) := h.sound.owns.of_eq (add_zero _)
  have hkept : ∀ {checked : Option (Response α × Workspace σ α)} {ended : Response α × Workspace σ α},
      checked = some ended → checked.map perform.keep = some (perform.keep ended) :=
    fun hended => congrArg (Option.map perform.keep) hended
  cases command with
  | create a recipe handle =>
      exact storeChecked_eq (runs_answered _ (recipe.runs_create handle hfits howns))
  | createBits a recipe handle =>
      exact storeChecked_eq (runs_answered _ (recipe.runs_createBits handle howns))
  | edit a e => exact hkept (withSequenceChecked_eq fun s hc => e.runs_perform hfits (h.elements hc))
  | editBits a e => exact hkept (withBitsChecked_eq fun s hc => e.runs_perform (h.bits hc))
  | copy a b =>
      cases hc : ws.container? a with
      | none => simp only [performChecked, perform, hc]
      | some c =>
          have hcopy := Container.runs_copy (w := ws.world) hfits (h.sound.valid a c hc) (h.capacity_le a c hc)
          simp only [performChecked, perform, hc]
          exact storeChecked_eq (runs_answered _ hcopy)
  | copyDemanded a b =>
      cases hc : ws.container? a with
      | none => simp only [performChecked, perform, hc]
      | some c =>
          have hcopy := Container.runs_copyDemanded (w := ws.world) hfits (h.sound.valid a c hc)
            (h.capacity_le a c hc)
          simp only [performChecked, perform, hc]
          exact storeChecked_eq (runs_answered _ hcopy)
  | copyFrom a b =>
      cases hpair : ws.pair? a b with
      | none => simp only [performChecked, perform, hpair]
      | some pair =>
          obtain ⟨c, d⟩ := pair
          obtain ⟨_, _, hd⟩ := pair?_of_some hpair
          cases d with
          | elements t =>
              have ht := (h.elements hd).countable.len_le
              simp only [performChecked, perform, hpair]
              exact hkept (withSequenceChecked_eq fun s hc =>
                runs_answered _ (Sequence.runs_copyFrom hfits (h.elements hc).countable ht))
          | bits t =>
              have ht := (h.bits hd).sound.valid
              simp only [performChecked, perform, hpair]
              exact hkept (withBitsChecked_eq fun s hc =>
                runs_answered _ (BitSequence.runs_copyFrom (h.bits hc) ht))
  | moveFrom a b =>
      cases hpair : ws.pair? a b with
      | none => simp only [performChecked, perform, hpair]
      | some pair =>
          obtain ⟨c, d⟩ := pair
          cases d with
          | elements t =>
              simp only [performChecked, perform, hpair]
              exact hkept (withSequencesChecked_eq fun s t hc hd => runs_answered _
                (Sequence.runs_moveFrom hfits (h.elements hc).countable (h.elements hd).countable.len_le))
          | bits t =>
              simp only [performChecked, perform, hpair]
              exact hkept (withBitSequencesChecked_eq fun s t hc hd => runs_answered _
                (BitSequence.runs_moveFrom (h.bits hc).sound.valid (h.bits hd).sound.valid
                  (h.bits hd).capacity_le))
  | discard a =>
      refine hkept (consumeChecked_eq fun c hc => .inr ⟨_, _, rfl, rfl, ?_⟩)
      exact Container.runs_discard hfits (h.sound.valid a c hc)
  | drain a moves =>
      refine hkept (consumeChecked_eq fun c hc => ?_)
      cases c with
      | elements s => exact .inr ⟨_, _, rfl, rfl, Drain.runs_drainAll moves hfits (h.elements hc).countable⟩
      | bits s => exact .inl ⟨rfl, rfl⟩
  | setPolicy place policy => rfl
  | setCode code => rfl

/-- **Step.**  A command breaks no check. -/
theorem Counted.runChecked_eq (command : Command σ α) :
    ws.runChecked E command = some (ws.run E command) := by
  have hsettles := perform_settles command h.sound
  unfold runChecked Workspace.run
  rw [h.performChecked_eq hfits command]
  generalize ws.perform E command = result at hsettles
  obtain ⟨response, replaced, ws'⟩ := result
  cases replaced with
  | none => rfl
  | some c =>
      have hdispose : (c.disposeChecked E).Runs (c.dispose E) ws'.world :=
        Container.runs_dispose hfits (hsettles.replaced c rfl)
      simp only [settleChecked, settle, Option.bind_eq_bind, Option.bind_some]
      rw [hdispose]
      rfl

/-- **Run.**  No command of a program stops. -/
theorem Counted.runAllChecked_eq (commands : List (Command σ α)) :
    ws.runAllChecked E commands = some (ws.runAll E commands) := by
  induction commands generalizing ws with
  | nil => rfl
  | cons command rest ih =>
      rw [runAllChecked, h.runChecked_eq hfits command]
      simp only [Option.bind_eq_bind, Option.bind_some, ih (h.run command)]
      rfl

end Commands

end Workspace

end Growable
