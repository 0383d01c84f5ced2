import Growable.Proofs.BitSequence.Refusal
import Growable.Proofs.Program.Custody
import Growable.Proofs.Sequence.Refusal

/-!
# Refused commands

A command that is refused leaves the registers as they were, with all that the containers hold and all
the memory that they have.  This is so after every program, and whatever the command is refused for: a
position, a limit, or memory that an allocator does not grant.

Only what consumes an iterator can be refused in the middle of its work (`Command.isFed`).  What it
leaves is said by `Edit.Leaves` and `BitEdit.Leaves`: an insertion leaves the contents and perhaps more
room than before, an assignment the members that were yielded before the refused one.

* `Edit.perform_refused`, `BitEdit.perform_refused` — an operation on a container;
* `Workspace.perform_refused` — a command;
* `Workspace.refused_leaves` — a command after any program.
-/

namespace Growable

open Act

variable {σ α β γ S : Type} {E : Element σ α} {w : World σ α} {m : Multiset (Asset α)}

/-- What is answered makes no difference to a refusal. -/
theorem Post.answer_refusing {act : Act S β} {answer : β → Answer α} {P : SequenceError → S → Prop}
    {s : S} (h : (act s).Meets (.refusing P)) :
    ((do return answer (← act) : Act S (Answer α)) s).Meets (.refusing P) :=
  bind_meets.mpr (h.imp (fun _ _ _ => trivial) (fun _ _ => id) (fun _ _ => id))

/-! ## Operations on sequences -/

/-- The operation consumes an iterator. -/
def Edit.isFed : Edit α → Bool
  | insertFeed _ _ => true
  | extendFeed _ => true
  | assignFeed _ => true
  | _ => false

/-- What is left of a sequence, and of the world around it, when an operation is refused. -/
def Edit.Leaves (s : Sequence α) (w : World σ α) : Edit α → Sequence α × World σ α → Prop
  | insertFeed _ _, u => u.1.items = s.items ∧ u.1.handle = s.handle ∧ s.capacity ≤ u.1.capacity
  | extendFeed _, u => u.1.items = s.items ∧ u.1.handle = s.handle ∧ s.capacity ≤ u.1.capacity
  | assignFeed feed, u =>
    u.1.handle = s.handle ∧ ∃ n, feed.Interrupted n w u.2 ∧ u.1.items = feed.members.take n
  | _, u => u.1 = s

/-- An operation of which the law says that a refusal leaves the sequence as it was. -/
theorem Sequence.answer_unchanged {s : Sequence α} {act : SequenceAct σ α β}
    {post : Post (Sequence α) β} (answer : β → Answer α)
    (h : (act (s, w)).Meets (Sequence.soundly E m post))
    (hsame : ∀ e t, post.refused e t → t = s) :
    ((do return answer (← act) : SequenceAct σ α (Answer α)) (s, w)).Meets
      (.refusing fun _ u => u.1 = s) :=
  Post.answer_refusing (h.refusing fun e u hu => hsame e u.1 hu.2)

open Sequence in
/-- Every refusal of an operation on a sequence leaves what the operation promises. -/
theorem Edit.perform_refused {s : Sequence α} (e : Edit α) (hs : Sequence.Sound E m (s, w)) :
    (e.perform E (s, w)).Meets (.refusing fun _ u => e.Leaves s w u) := by
  cases e with
  | reserve capacity =>
      exact answer_unchanged (fun _ => .nothing) (reserve_meets capacity hs) fun _ _ => And.right
  | reserveMore additional =>
      exact answer_unchanged (fun _ => .nothing) (reserveMore_meets additional hs) fun _ _ => And.right
  | shrink => exact answer_unchanged (fun _ => .nothing) (shrink_meets hs) fun _ _ => And.right
  | push x => exact answer_unchanged (fun _ => .nothing) (push_meets x hs) fun _ _ => And.right
  | pushBy maker =>
      exact answer_unchanged (fun _ => .nothing) (pushBy_call_meets maker hs) fun _ _ => And.right
  | pop => exact answer_unchanged .ofElement? (pop_meets hs) fun _ _ => False.elim
  | insert position x =>
      exact answer_unchanged (fun _ => .nothing) (insert_meets position x hs) fun _ _ => And.right
  | insertBy position maker =>
      exact answer_unchanged (fun _ => .nothing) (insertBy_call_meets position maker hs)
        fun _ _ => And.right
  | erase index => exact answer_unchanged .element (erase_meets index hs) fun _ _ => And.right
  | truncate n =>
      exact answer_unchanged (fun _ => .nothing) (truncate_meets n hs) fun _ _ => False.elim
  | clear => exact answer_unchanged (fun _ => .nothing) (truncate_meets 0 hs) fun _ _ => False.elim
  | resize n x => exact answer_unchanged (fun _ => .nothing) (resize_meets n x hs) fun _ _ => And.right
  | resizeDefault n =>
      exact answer_unchanged (fun _ => .nothing) (resizeMade_meets n hs fun _ _ => E.default_produces)
        fun _ _ => And.right
  | resizeBy n maker =>
      exact answer_unchanged (fun _ => .nothing) (resizeMade_meets n hs fun k _ => maker.produces k)
        fun _ _ => And.right
  | insertCopies position count x =>
      exact answer_unchanged (fun _ => .nothing) (insertCopies_meets position count x hs)
        fun _ _ => And.right
  | insertAll position xs =>
      exact answer_unchanged (fun _ => .nothing) (insertAll_meets position xs hs) fun _ _ => And.right
  | insertOwn position span =>
      apply answer_unchanged (fun _ => .nothing) (insertOwn_meets position span hs)
      rintro _ _ (⟨_, hsame⟩ | ⟨_, _, _, hsame⟩)
      · exact hsame
      · exact hsame
  | insertFeed position feed => exact Post.answer_refusing (insertFeed_refused position feed hs)
  | extendAll xs =>
      exact answer_unchanged (fun _ => .nothing) (extendAll_meets xs hs) fun _ _ => And.right
  | extendFeed feed => exact Post.answer_refusing (insertFeed_refused s.len feed hs)
  | eraseSpan span =>
      exact answer_unchanged (fun _ => .nothing) (eraseSpan_meets span hs) fun _ _ => And.right
  | assignCopies count x =>
      exact answer_unchanged (fun _ => .nothing) (assignCopies_meets count x hs) fun _ _ => And.right
  | assignAll xs =>
      exact answer_unchanged (fun _ => .nothing) (assignAll_meets xs hs) fun _ _ => And.right
  | assignFeed feed => exact Post.answer_refusing (assignFeed_refused feed hs)
  | get index =>
      simp only [perform, bind_meets, held_meets, ofExcept_meets, pure_meets]
      exact ⟨fun _ _ => trivial, fun _ _ => rfl⟩
  | exchange index x => exact answer_unchanged .element (exchange_meets index x hs) fun _ _ => And.right
  | demand index => exact answer_unchanged .element (demand_meets index hs) fun _ _ => False.elim
  | exchangeDemanded index x =>
      exact answer_unchanged .element (exchangeDemanded_meets index x hs) fun _ _ => False.elim
  | carry x => exact answer_unchanged .element (carry_meets x hs) fun _ _ => False.elim

/-! ## Operations on bit sequences -/

/-- The operation consumes an iterator. -/
def BitEdit.isFed : BitEdit → Bool
  | insertFeed _ _ => true
  | extendFeed _ => true
  | assignFeed _ => true
  | _ => false

/-- What is left of a bit sequence, and of the world around it, when an operation is refused. -/
def BitEdit.Leaves (s : BitSequence) (w : World σ α) : BitEdit → BitSequence × World σ α → Prop
  | insertFeed _ _, u => u.1.bits = s.bits ∧ u.1.handle = s.handle ∧ s.capacity ≤ u.1.capacity
  | extendFeed _, u => u.1.bits = s.bits ∧ u.1.handle = s.handle ∧ s.capacity ≤ u.1.capacity
  | assignFeed feed, u =>
    u.1.handle = s.handle ∧ ∃ n, feed.Interrupted n w u.2 ∧ u.1.bits = feed.members.take n
  | _, u => u.1 = s

open BitSequence in
/-- An insertion from an iterator that is refused leaves the bits, and perhaps a larger block. -/
theorem BitEdit.insertFeed_leaves {s : BitSequence} (position : Nat) (feed : Feed Bool)
    (hs : BitSequence.Sound m (s, w)) :
    (BitSequence.insertFeed position feed (s, w)).Meets (.refusing fun _ u =>
      u.1.bits = s.bits ∧ u.1.handle = s.handle ∧ s.capacity ≤ u.1.capacity) := by
  apply (insertFeed_refused position feed hs).refusing
  exact fun _ _ hu => ⟨hu.1, hu.2.1, Nat.mul_le_mul_right _ hu.2.2⟩

open BitSequence in
/-- Every refusal of an operation on a bit sequence leaves what the operation promises. -/
theorem BitEdit.perform_refused {s : BitSequence} (e : BitEdit) (hs : BitSequence.Sound m (s, w)) :
    ((e.perform : BitAct σ α (Answer α)) (s, w)).Meets (.refusing fun _ u => e.Leaves s w u) := by
  cases e with
  | reserve capacity => exact Post.answer_refusing (atomic_reserve capacity (s, w))
  | reserveMore additional => exact Post.answer_refusing (atomic_reserveMore additional (s, w))
  | shrink => exact Post.answer_refusing (atomic_shrink (s, w))
  | push value => exact Post.answer_refusing (atomic_push value (s, w))
  | pop => exact Post.answer_refusing (firm_pop.atomic (s, w))
  | insert position value => exact Post.answer_refusing (atomic_insertCopies position 1 value (s, w))
  | erase index => exact Post.answer_refusing (atomic_erase index (s, w))
  | truncate n => exact Post.answer_refusing ((firm_truncate n).atomic (s, w))
  | clear => exact Post.answer_refusing ((firm_truncate 0).atomic (s, w))
  | resize n value => exact Post.answer_refusing (atomic_resize n value (s, w))
  | insertCopies position count value =>
      exact Post.answer_refusing (atomic_insertCopies position count value (s, w))
  | insertAll position values => exact Post.answer_refusing (atomic_insertAll position values (s, w))
  | insertFeed position feed => exact Post.answer_refusing (insertFeed_leaves position feed hs)
  | extendAll values => exact Post.answer_refusing (atomic_extendAll values (s, w))
  | extendFeed feed => exact Post.answer_refusing (insertFeed_leaves s.len feed hs)
  | eraseSpan span => exact Post.answer_refusing (atomic_eraseSpan span (s, w))
  | assignCopies count value => exact Post.answer_refusing (atomic_assignCopies count value (s, w))
  | assignAll values => exact Post.answer_refusing (atomic_assignAll values (s, w))
  | assignFeed feed => exact Post.answer_refusing (assignFeed_refused feed hs)
  | get index => exact Post.answer_refusing (atomic_get index (s, w))
  | set index value => exact Post.answer_refusing (atomic_set index value (s, w))
  | change index changes => exact Post.answer_refusing (atomic_change index changes (s, w))

/-! ## Commands -/

/-- The command consumes an iterator. -/
def Command.isFed : Command σ α → Bool
  | edit _ e => e.isFed
  | editBits _ e => e.isFed
  | _ => false

/-- What is left of a workspace when a command is refused. -/
def Command.Leaves (ws ws' : Workspace σ α) : Command σ α → Prop
  | edit a e => ∃ s t, ws.container? a = some (.elements s) ∧ e.Leaves s ws.world (t, ws'.world) ∧
      ws'.registers = ws.registers.set a (some (.elements t))
  | editBits a e => ∃ s t, ws.container? a = some (.bits s) ∧ e.Leaves s ws.world (t, ws'.world) ∧
      ws'.registers = ws.registers.set a (some (.bits t))
  | _ => ws'.registers = ws.registers

namespace Workspace

variable {ws ws' : Workspace σ α} {a b : Nat} {e : SequenceError}

/-- The registers are the same when a container is put back. -/
theorem registers_set {c : Container α} (hc : ws.container? a = some c) :
    ws.registers.set a (some c) = ws.registers :=
  congrArg registers (put_same hc)

/-- Where no iterator is consumed, everything is as it was. -/
theorem registers_of_leaves {command : Command σ α} (h : command.Leaves ws ws')
    (hfed : command.isFed = false) : ws'.registers = ws.registers := by
  cases command with
  | edit a e =>
      obtain ⟨s, t, hc, hleft, hregisters⟩ := h
      have hsame : t = s := by cases e <;> first | exact hleft | cases hfed
      rw [hregisters, hsame, registers_set hc]
  | editBits a e =>
      obtain ⟨s, t, hc, hleft, hregisters⟩ := h
      have hsame : t = s := by cases e <;> first | exact hleft | cases hfed
      rw [hregisters, hsame, registers_set hc]
  | _ => exact h

/-- A refused response comes from a refused act. -/
theorem Response.refused_of_ofOutcome {o : Outcome S (Answer α)} {P : SequenceError → S → Prop}
    (h : o.Meets (.refusing P)) (he : Response.ofOutcome o = .refused e) : P e o.state := by
  cases o with
  | done answer s => cases he
  | refused e' s =>
      cases he
      exact h
  | faulted f s => cases he

/-- A container that is refused is not stored. -/
theorem store_refused {act : Act (World σ α) (Option (Container α))}
    (he : (ws.store a act).1 = .refused e) :
    (ws.store a act).2.1 = none ∧ (ws.store a act).2.2.registers = ws.registers := by
  have hstores : Stores ws a _ (ws.store a act) :=
    store_spec (Outcome.meets_always.mpr trivial : (act ws.world).Meets (.always fun _ => True))
  generalize ws.store a act = result at hstores he
  cases hstores with
  | refused ha _ => exact ⟨rfl, rfl⟩
  | vacant | stored | invalid | faulted => cases he

/-- An act that is refused leaves the container in the register as `P` says, and the other registers. -/
theorem Edited.refused {S : Type} {into : S → Container α} {act : Act (S × World σ α) (Answer α)}
    {result : Response α × Workspace σ α} (hedited : Edited into ws a act result)
    {P : S → S × World σ α → Prop} (hs : Sound E 0 ws)
    (hact : ∀ s, (into s).Valid E → ws.world.Owns ((into s).assets E + ((ws.put a none).assets E + 0)) →
      (act (s, ws.world)).Meets (.refusing fun _ u => P s u))
    (he : result.1 = .refused e) :
    ∃ s t, ws.container? a = some (into s) ∧ P s (t, result.2.world) ∧
      result.2.registers = ws.registers.set a (some (into t)) := by
  cases hedited with
  | vacant _ => cases he
  | found hc ho =>
      obtain ⟨hvalid, howns⟩ := hs.parts hc
      exact ⟨_, _, hc, Response.refused_of_ofOutcome (ho ▸ hact _ hvalid howns) he, rfl⟩

/-- A container is taken out of its register only where nothing is refused. -/
theorem consume_answers {act : Container α → Option (Act (World σ α) (Answer α))} (hs : Sound E 0 ws)
    (hact : ∀ c act', act c = some act' → c.Valid E →
      ws.world.Owns (c.assets E + ((ws.put a none).assets E + 0)) →
      (act' ws.world).Meets (.refusing fun _ _ => False)) :
    (ws.consume a act).1 ≠ .refused e := by
  intro he
  unfold consume at he
  cases hc : ws.container? a with
  | none =>
      rw [hc] at he
      cases he
  | some c =>
      rw [hc, Option.bind_some] at he
      cases hsome : act c with
      | none =>
          rw [hsome] at he
          cases he
      | some act' =>
          rw [hsome] at he
          obtain ⟨hvalid, howns⟩ := hs.parts hc
          exact Response.refused_of_ofOutcome (hact c act' hsome hvalid howns) he

/-- A copy that is refused leaves all the registers. -/
theorem copyFrom_refused (hs : Sound E 0 ws)
    (he : (ws.perform E (.copyFrom a b)).1 = .refused e) :
    (ws.perform E (.copyFrom a b)).2.2.registers = ws.registers := by
  cases hpair : ws.pair? a b with
  | none =>
      simp only [perform, hpair] at he
      cases he
  | some pair =>
      obtain ⟨c, d⟩ := pair
      cases d with
      | elements t =>
          simp only [perform, hpair, perform.keep] at he ⊢
          obtain ⟨s, _, hc, rfl, hregisters⟩ := (edited_withSequence _).refused hs
            (fun s hvalid howns => Sequence.answer_unchanged (fun _ => .nothing)
              (Sequence.copyFrom_meets ⟨hvalid, howns⟩) fun _ _ => And.right) he
          rw [hregisters, registers_set hc]
      | bits t =>
          simp only [perform, hpair, perform.keep] at he ⊢
          obtain ⟨s, _, hc, rfl, hregisters⟩ := (edited_withBits _).refused hs
            (fun s _ _ => Post.answer_refusing (BitSequence.atomic_copyFrom t (s, ws.world))) he
          rw [hregisters, registers_set hc]

/-- A move that is refused leaves all the registers. -/
theorem moveFrom_refused (hs : Sound E 0 ws)
    (he : (ws.perform E (.moveFrom a b)).1 = .refused e) :
    (ws.perform E (.moveFrom a b)).2.2.registers = ws.registers := by
  have hsame : ∀ {c d : Container α}, ws.container? a = some c → ws.container? b = some d →
      ((ws.put a (some c)).put b (some d)).registers = ws.registers := by
    intro c d hc hd
    rw [put, put, registers_set hc, registers_set hd]
  revert he
  refine moveFrom_cases (P := fun result => result.1 = .refused e → result.2.2.registers = ws.registers)
    (fun _ => rfl) ?_ ?_
  · intro s t hpair o ho he
    obtain ⟨hne, hc, hd⟩ := pair?_of_some hpair
    obtain ⟨hvalid, hvalid', howns⟩ := hs.parts_pair hne hc hd
    have hmoved : o.Meets (.refusing fun _ u => u.1 = (s, t)) :=
      ho ▸ Post.answer_refusing ((Sequence.moveFrom_meets ⟨hvalid, hvalid', howns⟩).refusing
        fun _ _ hu => hu.2.2)
    simp only [Response.refused_of_ofOutcome hmoved he]
    exact hsame hc hd
  · intro s t hpair o ho he
    obtain ⟨_, hc, hd⟩ := pair?_of_some hpair
    have hmoved : o.Meets (.refusing fun _ u => u.1 = (s, t)) :=
      ho ▸ Post.answer_refusing (BitSequence.atomic_moveFrom ((s, t), ws.world))
    simp only [Response.refused_of_ofOutcome hmoved he]
    exact hsame hc hd

/-- **Step.**  A refused command replaces no container, and leaves what `Command.Leaves` says. -/
theorem perform_refused (command : Command σ α) (hs : Sound E 0 ws)
    (he : (ws.perform E command).1 = .refused e) :
    (ws.perform E command).2.1 = none ∧ command.Leaves ws (ws.perform E command).2.2 := by
  cases command with
  | create a recipe handle => exact store_refused he
  | createBits a recipe handle => exact store_refused he
  | edit a e =>
      exact ⟨rfl, (edited_withSequence _).refused hs (fun _ hvalid howns => e.perform_refused ⟨hvalid, howns⟩) he⟩
  | editBits a e =>
      exact ⟨rfl, (edited_withBits _).refused hs (fun _ hvalid howns => e.perform_refused ⟨hvalid, howns⟩) he⟩
  | copy a b =>
      revert he
      refine copy_cases (P := fun result => result.1 = .refused e →
        result.2.1 = none ∧ (Command.copy a b : Command σ α).Leaves ws result.2.2) ?_ fun c _ => store_refused
      exact fun he => by cases he
  | copyDemanded a b =>
      revert he
      refine copyDemanded_cases (P := fun result => result.1 = .refused e →
        result.2.1 = none ∧ (Command.copyDemanded a b : Command σ α).Leaves ws result.2.2) ?_ fun c _ => store_refused
      exact fun he => by cases he
  | copyFrom a b =>
      have hleft := copyFrom_refused hs he
      refine ⟨?_, hleft⟩
      simp only [perform]
      split <;> rfl
  | moveFrom a b =>
      have hleft := moveFrom_refused hs he
      refine ⟨?_, hleft⟩
      simp only [perform]
      split <;> rfl
  | discard a =>
      refine absurd he (consume_answers hs fun c act' hact hc h => ?_)
      cases hact
      exact (discardOne_meets hc h).refusing fun _ _ => id
  | drain a moves =>
      refine absurd he (consume_answers hs fun c act' hact hc h => ?_)
      cases c with
      | elements s =>
          cases hact
          exact (drainAll_meets moves hc h).refusing fun _ _ => id
      | bits s => cases hact
  | setPolicy place policy => cases he
  | setCode code => cases he

/-- **A refusal leaves everything as it was.**  If a command is refused after any program, then all
registers are as they were, unless the command consumes an iterator; if it inserts what an iterator
yields, the contents and the handle are as they were, and the capacity is no less; if it assigns what an
iterator yields, the members that were yielded before the refused one are the contents. -/
theorem refused_leaves (E : Element σ α) (registers : Nat) (accounts : List Account) (code : σ)
    (commands : List (Command σ α)) (command : Command σ α) (e : SequenceError) :
    let ws := (runAll E (initial registers accounts code) commands).2
    (ws.run E command).1 = .refused e →
      command.Leaves ws (ws.run E command).2 ∧
      (command.isFed = false → (ws.run E command).2.registers = ws.registers) := by
  intro ws he
  have hs : Sound E 0 ws := runAll_sound commands (sound_initial registers accounts code)
  have hleft : (ws.perform E command).2.1 = none ∧
      command.Leaves ws (ws.perform E command).2.2 := perform_refused command hs he
  have hrun : command.Leaves ws (ws.run E command).2 := by
    unfold run
    generalize ws.perform E command = result at hleft
    obtain ⟨response, replaced, ws'⟩ := result
    obtain ⟨rfl, hleft⟩ := hleft
    exact hleft
  exact ⟨hrun, registers_of_leaves hrun⟩

/-- Six numbers are assigned where memory is granted only once, and the first four of them stay. -/
theorem refused_leaves_assigned :
    let E : Element Unit Nat := .plain ⟨4, 4⟩ 0
    let commands : List (Command Unit Nat) := [.create 0 .empty (Handle.of ⟨0, .numbered 0⟩)]
    let command : Command Unit Nat := .edit 0 (.assignFeed (.ofList [1, 2, 3, 4, 5, 6] .finish))
    let ws := (runAll E (initial 1 [.limited .unlimited (some 1) 1000] ()) commands).2
    (ws.run E command).1 = .refused .allocationFailure ∧
      ((ws.run E command).2.sequence? 0).map Sequence.items = some [1, 2, 3, 4] ∧
      command.Leaves ws (ws.run E command).2 ∧
      (command.isFed = false → (ws.run E command).2.registers = ws.registers) := by
  exact ⟨rfl, rfl, refused_leaves _ 1 _ () _ _ .allocationFailure rfl⟩

end Workspace

end Growable
