import Growable.Proofs.Program.Custody
import Growable.Proofs.Program.Lists

/-!
# Commands as steps of plain lists

The registers of a workspace are seen as lists by a way to `read` containers: as their elements, or as
their bits.  What a command does to a container is then a `Step` of these lists, whichever kind it is of;
and a container that cannot be read is not seen at all.

* `Workspace.store_makes`, `Workspace.store_displaces` — a container comes into a register;
* `Workspace.copy_steps`, `Workspace.discard_steps` — it is copied, or used up;
* `Workspace.edit_steps`, `Workspace.move_steps` — its contents are changed;
* `Workspace.runAll_runs` — where every command is a step, every program is a run.
-/

namespace Growable

variable {σ α β γ : Type} {E : Element σ α} {w : World σ α} {m : Multiset (Asset α)}

/-! ## Responses -/

/-- The answer to a command is made of what the operation came to. -/
theorem Outcome.Meets.answered {S : Type} {act : Act S β} {contents : S → List γ} {s : S}
    {listAct : ListAct γ β} {left : List γ → Prop}
    (h : (act s).Meets (refining contents (listAct (contents s)) left)) (g : β → Answer α) :
    ((do return g (← act) : Act S (Answer α)) s).Meets
      (refining contents ((do return g (← listAct) : ListAct γ (Answer α)) (contents s)) left) := by
  rw [Act.bind_meets]
  obtain ⟨hdone, hrefused, hfaulted⟩ := refining_map contents listAct (contents s) left g
  exact h.imp hdone hrefused hfaulted

/-- The response to an operation that does to its contents what it does to a list. -/
theorem follows_of_refining {S : Type} {contents : S → List γ} {o : Outcome S (Answer α)}
    {reference : Outcome (List γ) (Answer α)} {left : List γ → Prop}
    (h : o.Meets (refining contents reference left)) :
    Follows reference left (.ofOutcome o) (contents o.state) := by
  cases o with
  | done answer s => exact .done h
  | refused e s =>
      rcases h with hrefused | ⟨hlack, haccepted, hleft⟩
      · exact .refused hrefused
      · exact .lack hlack haccepted hleft
  | faulted f s => exact .faulted h

/-! ## Registers -/

namespace Container

/-- The elements of a sequence. -/
def items? : Container α → Option (List α)
  | elements s => some s.items
  | bits _ => none

/-- The bits of a bit sequence. -/
def bits? : Container α → Option (List Bool)
  | elements _ => none
  | bits s => some s.bits

end Container

namespace Workspace

variable {ws : Workspace σ α} {a b : Nat} {read : Container α → Option (List γ)}

/-- What the registers hold, as far as it is of the kind that is read. -/
def lists (read : Container α → Option (List γ)) (ws : Workspace σ α) : Lists γ :=
  ws.registers.map (·.bind read)

/-- The list of a register is read off its container. -/
theorem lists_getElem? (read : Container α → Option (List γ)) (ws : Workspace σ α) (a : Nat) :
    (ws.lists read)[a]?.join = (ws.container? a).bind read := by
  rw [lists, List.getElem?_map, container?]
  cases ws.registers[a]? <;> rfl

/-- Setting a register sets its list. -/
theorem lists_put (a : Nat) (slot : Option (Container α)) :
    (ws.put a slot).lists read = (ws.lists read).set a (slot.bind read) :=
  List.map_set

/-- There is a list, or none, for each register. -/
theorem length_lists (read : Container α → Option (List γ)) (ws : Workspace σ α) :
    (ws.lists read).length = ws.registers.length :=
  List.length_map _

/-- A container that is there has its reading in the lists. -/
theorem lists_of_some {c : Container α} (read : Container α → Option (List γ))
    (h : ws.container? a = some c) : (ws.lists read)[a]?.join = read c := by
  rw [lists_getElem?, h, Option.bind_some]

/-- An empty register has no list. -/
theorem lists_of_none (h : ws.container? a = none) : (ws.lists read)[a]?.join = none := by
  rw [lists_getElem?, h, Option.bind_none]

/-- Without a pair, one of the two has no list, or they are one register. -/
theorem lists_of_pair (h : ws.pair? a b = none) :
    a = b ∨ (ws.lists read)[a]?.join = none ∨ (ws.lists read)[b]?.join = none := by
  rcases pair?_of_none h with hsame | ha | hb
  · exact .inl hsame
  · exact .inr (.inl (lists_of_none ha))
  · exact .inr (.inr (lists_of_none hb))

/-- Nothing is seen of a container that looks like the one in whose place it comes. -/
theorem lists_put_same {c d : Container α} (h : ws.container? a = some c) (hsame : read d = read c) :
    (ws.put a (some d)).lists read = ws.lists read := by
  have hput := congrArg (lists read) (put_same h)
  rw [lists_put, Option.bind_some, ← hsame] at hput
  rw [lists_put, Option.bind_some, hput]

/-- Nothing is seen of a container of another kind that is taken away. -/
theorem lists_put_none {c : Container α} (h : ws.container? a = some c) (hnone : read c = none) :
    (ws.put a none).lists read = ws.lists read := by
  have hput := congrArg (lists read) (put_same h)
  rw [lists_put, Option.bind_some, hnone] at hput
  rw [lists_put, Option.bind_none, hput]

/-- Containers replaced by ones that read the same leave the lists. -/
theorem lists_put_pair_same {c d x y : Container α} (hne : a ≠ b) (hc : ws.container? a = some c)
    (hd : ws.container? b = some d) (hx : read x = read c) (hy : read y = read d) :
    ((ws.put a (some x)).put b (some y)).lists read = ws.lists read := by
  have hd' : (ws.put a (some x)).container? b = some d := by
    rw [container?_put _ (lt_of_container? hc), if_neg (Ne.symm hne), hd]
  rw [lists_put_same hd' hy, lists_put_same hc hx]

/-! ## Containers that come and go -/

/-- A container that holds the members comes into a register, or nothing is changed; only the act that
makes the container faults. -/
theorem store_makes (a : Nat) {act : Act (World σ α) (Option (Container α))}
    {Q : Option (Container α) → Prop} {G : Fault → Prop} {members : Except String (Option (List γ))}
    (h : (act ws.world).Meets (Container.made E m Q G))
    (hQ : ∀ slot, Q slot → ∃ made, members = .ok made ∧ slot.map read = made.map some) :
    let result := ws.store a act
    Step (ws.lists read) (.make a members) result.1 (result.2.2.lists read) ∨
      ∃ f, G f ∧ a < (ws.lists read).length ∧ result.1 = .faulted f ∧
        result.2.2.lists read = ws.lists read := by
  intro result
  have hstores : Stores ws a _ result := store_spec h
  generalize result = r at hstores
  rw [length_lists]
  cases hstores with
  | vacant hfar => exact .inl (.makeVacant (by rwa [length_lists]))
  | @stored c w ha hc =>
      obtain ⟨made, rfl, hread⟩ := hQ _ hc.spec
      obtain ⟨ys, rfl, hys⟩ := Option.map_eq_some_iff.mp hread.symm
      have hput : ({ ws.put a (some c) with world := w } : Workspace σ α).lists read
          = (ws.lists read).set a (some ys) := (lists_put a (some c)).trans (by rw [hys]; rfl)
      exact .inl (hput ▸ .made (by rwa [length_lists]))
  | invalid ha hnone =>
      obtain ⟨made, rfl, hread⟩ := hQ _ hnone.spec
      obtain rfl := Option.map_eq_none_iff.mp hread.symm
      exact .inl (.invalid (by rwa [length_lists]))
  | refused ha he => exact .inl (.makeLack (by rwa [length_lists]) he.1)
  | faulted ha hf => exact .inr ⟨_, hf.2, ha, rfl, rfl⟩

/-- Items that raise a fault are a step, too, whichever kind of container was to be made of them. -/
theorem makes_raised {recipe : Recipe γ} {f : Fault} {result : Response α × Option (Container α) × Workspace σ α}
    (hraises : recipe.Raises f)
    (hresult : a < (ws.lists read).length ∧ result.1 = .faulted f ∧ result.2.2.lists read = ws.lists read) :
    Step (ws.lists read) (.make a recipe.members) result.1 (result.2.2.lists read) := by
  obtain ⟨message, hmembers, rfl⟩ := hraises
  obtain ⟨ha, hresponse, hsame⟩ := hresult
  rw [hmembers, hresponse, hsame]
  exact .makeRaised ha

/-- A container of another kind comes into a register, or nothing is changed. -/
theorem store_displaces {act : Act (World σ α) (Option (Container α))}
    {Q : Option (Container α) → Prop} {G : Fault → Prop}
    (h : (act ws.world).Meets (Container.made E m Q G))
    (hQ : ∀ slot, Q slot → slot.bind read = none) :
    let result := ws.store a act
    Step (ws.lists read) (.displace a) result.1 (result.2.2.lists read) := by
  intro result
  have hstores : Stores ws a _ result := store_spec h
  generalize result = r at hstores
  cases hstores with
  | vacant hfar => exact .kept fun _ h => by cases h
  | @stored c w ha hc =>
      have hput : ({ ws.put a (some c) with world := w } : Workspace σ α).lists read
          = (ws.lists read).set a none := (lists_put a (some c)).trans (by rw [hQ _ hc.spec])
      exact hput ▸ .displaced
  | invalid ha hnone => exact .kept fun _ h => by cases h
  | refused ha he => exact .kept fun _ h => by cases h
  | faulted ha hf => exact .kept fun _ h => by cases h

/-- A way to read containers that goes with copies of them, where these do not fault. -/
structure Reads (E : Element σ α) (read : Container α → Option (List γ)) : Prop where
  copy : ∀ c slot, c.IsCopy E slot → ∃ d, slot = some d ∧ read d = read c
  not_codeFaults : ∀ c xs f, read c = some xs → ¬ c.CodeFaults E f

/-- Of two ways to copy a container, the claim is the same up to the faults. -/
theorem copy_makes {c : Container α} {act : Act (World σ α) (Option (Container α))} {G : Fault → Prop}
    (hread : Reads E read) (hc : ws.container? a = some c) (b : Nat)
    (h : (act ws.world).Meets (Container.made E m (c.IsCopy E) G)) :
    let result := ws.store b act
    Step (ws.lists read) (.copy a b) result.1 (result.2.2.lists read) ∨
      ∃ f xs, read c = some xs ∧ G f ∧ b < (ws.lists read).length ∧ result.1 = .faulted f ∧
        result.2.2.lists read = ws.lists read := by
  have ha := lists_of_some read hc
  cases hxs : read c with
  | none =>
      refine .inl (.copyOther (ha.trans hxs) (store_displaces h fun slot hslot => ?_))
      obtain ⟨d, rfl, hd⟩ := hread.copy c slot hslot
      exact hd.trans hxs
  | some xs =>
      have hmembers : ∀ slot, c.IsCopy E slot → ∃ made, (.ok (some xs) : Except String _) = .ok made ∧
          slot.map read = made.map some := by
        intro slot hslot
        obtain ⟨d, rfl, hd⟩ := hread.copy c slot hslot
        exact ⟨_, rfl, congrArg some (hd.trans hxs)⟩
      rcases store_makes b h hmembers with hstep | ⟨f, hf, hfault⟩
      · exact .inl (.copied (ha.trans hxs) hstep)
      · exact .inr ⟨f, xs, rfl, hf, hfault⟩

/-- To copy a container is to copy its list. -/
theorem copy_steps (hread : Reads E read) (hs : Sound E 0 ws) (a b : Nat) :
    let result := ws.perform E (.copy a b)
    Step (ws.lists read) (.copy a b) result.1 (result.2.2.lists read) := by
  intro result
  cases hc : ws.container? a with
  | none =>
      simp only [result, perform, hc]
      exact .copyOther (lists_of_none hc) (.kept fun _ h => by cases h)
  | some c =>
      have hcopy := Container.copy_meets (hs.valid a c hc) (hs.owns.of_eq (add_zero _))
      simp only [result, perform, hc]
      rcases copy_makes hread hc b hcopy with hstep | ⟨f, xs, hxs, hf, _⟩
      · exact hstep
      · exact absurd hf (hread.not_codeFaults c xs f hxs)

theorem copyDemanded_steps (hread : Reads E read) (hs : Sound E 0 ws) (a b : Nat) :
    let result := ws.perform E (.copyDemanded a b)
    Step (ws.lists read) (.copyDemanded a b) result.1 (result.2.2.lists read) := by
  intro result
  cases hc : ws.container? a with
  | none =>
      simp only [result, perform, hc]
      exact .copiedDemanded (.copyOther (lists_of_none hc) (.kept fun _ h => by cases h))
  | some c =>
      have hcopy := Container.copyDemanded_meets (hs.valid a c hc) (hs.owns.of_eq (add_zero _))
      simp only [result, perform, hc]
      rcases copy_makes hread hc b hcopy with hstep | ⟨f, xs, hxs, hf, hb, hresponse, hsame⟩
      · exact .copiedDemanded hstep
      · rcases hf with hf | ⟨e, he, rfl⟩
        · exact absurd hf (hread.not_codeFaults c xs f hxs)
        · rw [hresponse, hsame]
          exact .copyFaulted hb he

/-- To discard a container is to clear its list. -/
theorem discard_steps (hread : Reads E read) (hs : Sound E 0 ws) (a : Nat) :
    let result := ws.perform E (.discard a)
    Step (ws.lists read) (.discard a) result.1 (result.2.2.lists read) := by
  intro result
  cases hc : ws.container? a with
  | none =>
      have hconsume : ws.consume a (fun c => some (discardOne E c)) = _ :=
        consume_of_none (by rw [hc]; rfl)
      simp only [result, perform, perform.keep, hconsume]
      exact .discardOther (lists_of_none hc)
  | some c =>
      have ha := lists_of_some read hc
      obtain ⟨hvalid, howns⟩ := hs.parts hc
      have hdiscard := discardOne_meets hvalid howns
      have hconsume : ws.consume a (fun c => some (discardOne E c)) = _ := consume_of_some hc rfl
      simp only [result, perform, perform.keep, hconsume]
      change Step _ _ _ ((ws.put a none).lists read)
      cases hxs : read c with
      | none =>
          rw [lists_put_none hc hxs]
          exact .discardOther (ha.trans hxs)
      | some xs =>
          rw [lists_put]
          cases ho : discardOne E c ws.world with
          | done answer w' =>
              rw [ho] at hdiscard
              obtain ⟨rfl, _⟩ := hdiscard
              exact .discarded (ha.trans hxs)
          | refused e w' =>
              rw [ho] at hdiscard
              exact hdiscard.elim
          | faulted f w' =>
              rw [ho] at hdiscard
              exact absurd hdiscard.2 (hread.not_codeFaults c xs f hxs)

/-! ## Containers that are edited

A container is seen `into` its register, whichever kind it is, and `contents` are what is read of it. -/

section Edited

variable {S : Type} {into : S → Container α} {contents : S → List γ} {s t : S}
  (hread : ∀ s, read (into s) = some (contents s))
include hread

/-- An operation that does to the contents what it does to a list is a step. -/
theorem edit_steps {o : Outcome (S × World σ α) (Answer α)} {acts : ListAct γ (Answer α) → Prop}
    {left : List γ → List γ → Prop} {listAct : ListAct γ (Answer α)}
    (hc : ws.container? a = some (into s)) (hact : acts listAct)
    (h : o.Meets (refining (fun u => contents u.1) (listAct (contents s)) (left (contents s)))) :
    Step (ws.lists read) (.edit a acts left) (.ofOutcome o)
      ((ws.put a (some (into o.state.1))).lists read) := by
  rw [lists_put, Option.bind_some, hread]
  exact .edited ((lists_of_some read hc).trans (hread s)) hact (follows_of_refining h)

/-- So is an operation that may find no container of its kind. -/
theorem Edited.steps (hkind : ∀ c xs, read c = some xs → ∃ s, c = into s)
    {act : Act (S × World σ α) (Answer α)} {result : Response α × Workspace σ α}
    (hedited : Edited into ws a act result) {acts : ListAct γ (Answer α) → Prop}
    {left : List γ → List γ → Prop} (hs : Sound E 0 ws)
    (h : ∀ s, (into s).Valid E → ws.world.Owns ((into s).assets E + ((ws.put a none).assets E + 0)) →
      ∃ listAct, acts listAct ∧ (act (s, ws.world)).Meets
        (refining (fun u => contents u.1) (listAct (contents s)) (left (contents s)))) :
    Step (ws.lists read) (.edit a acts left) result.1 (result.2.lists read) := by
  cases hedited with
  | vacant hnone =>
      apply Step.editVacant
      rw [lists_getElem?]
      cases hc : ws.container? a with
      | none => rfl
      | some c =>
          cases hxs : read c with
          | none => exact hxs
          | some xs =>
              obtain ⟨s, rfl⟩ := hkind c xs hxs
              exact absurd hc (hnone s)
  | found hc ho =>
      obtain ⟨hvalid, howns⟩ := hs.parts hc
      obtain ⟨listAct, hact, hmeets⟩ := h _ hvalid howns
      exact edit_steps hread hc hact (ho ▸ hmeets)

/-- An operation that moves the contents of the second container into the first one is a step. -/
theorem move_steps {o : Outcome ((S × S) × World σ α) (Answer α)} (hne : a ≠ b)
    (hc : ws.container? a = some (into s)) (hd : ws.container? b = some (into t))
    (h : o.Meets ⟨fun answer u => answer = .nothing ∧ contents u.1.1 = contents t ∧
        contents u.1.2 = [], fun e u => e.IsLack ∧ u.1 = (s, t), fun _ _ => False⟩) :
    Step (ws.lists read) (.moveFrom a b) (.ofOutcome o)
      (((ws.put a (some (into o.state.1.1))).put b (some (into o.state.1.2))).lists read) := by
  have ha := (lists_of_some read hc).trans (hread s)
  have hb := (lists_of_some read hd).trans (hread t)
  cases o with
  | done answer u =>
      obtain ⟨rfl, hfirst, hsecond⟩ := h
      rw [lists_put, lists_put, Option.bind_some, Option.bind_some, hread, hread]
      simp only [Outcome.state, hfirst, hsecond]
      exact .moved hne ha hb
  | refused e u =>
      obtain ⟨hlack, hsame⟩ := h
      simp only [Outcome.state, hsame]
      rw [lists_put_pair_same hne hc hd rfl rfl]
      exact .moveLack hne ha hb hlack
  | faulted f u => exact h.elim

end Edited

/-! ## Containers that are not seen -/

section Unseen

variable {S : Type} {into : S → Container α} (hunseen : ∀ s, read (into s) = none)

include hunseen

/-- An operation on a container of another kind is no concern of those who do not see it. -/
theorem Edited.lists_eq {act : Act (S × World σ α) (Answer α)} {result : Response α × Workspace σ α}
    (h : Edited into ws a act result) : result.2.lists read = ws.lists read := by
  cases h with
  | vacant _ => rfl
  | found hc _ => exact lists_put_same hc ((hunseen _).trans (hunseen _).symm)

/-- Containers that the reading does not see are replaced without a change of the lists. -/
theorem lists_put_unseen {s t : S} (hne : a ≠ b) (hc : ws.container? a = some (into s))
    (hd : ws.container? b = some (into t)) (x y : S) :
    ((ws.put a (some (into x))).put b (some (into y))).lists read = ws.lists read :=
  lists_put_pair_same hne hc hd ((hunseen _).trans (hunseen _).symm) ((hunseen _).trans (hunseen _).symm)

end Unseen

/-- A drain of elements is unseen by a reading of bits. -/
theorem lists_drain (a : Nat) (moves : List DrainMove) (hread : ∀ s, read (.elements s) = none) :
    (ws.perform E (.drain a moves)).2.2.lists read = ws.lists read := by
  simp only [perform, perform.keep]
  cases hc : ws.container? a with
  | none => rw [consume_of_none (by rw [hc]; rfl)]
  | some c =>
      cases c with
      | elements s =>
          rw [consume_of_some hc rfl]
          exact lists_put_none hc (hread s)
      | bits s => rw [consume_of_none (by rw [hc]; rfl)]

/-! ## Programs -/

/-- A container that was replaced is given up outside the lists. -/
theorem lists_settle (replaced : Option (Container α)) :
    (ws.settle E replaced).lists read = ws.lists read := by
  cases replaced <;> rfl

/-- **Run.**  Where each command is a step, all of them are a run. -/
theorem runAll_runs {order : Command σ α → Order γ α}
    (hstep : ∀ (ws : Workspace σ α) command, Sound E 0 ws →
      let result := ws.perform E command
      Step (ws.lists read) (order command) result.1 (result.2.2.lists read))
    (commands : List (Command σ α)) (hs : Sound E 0 ws) :
    let result := ws.runAll E commands
    Runs order (ws.lists read) commands result.1 (result.2.lists read) := by
  intro result
  induction commands generalizing ws with
  | nil => exact .nil _
  | cons command rest ih =>
      -- What a command replaces is dropped afterwards, which no list shows.
      have hsettle : (ws.run E command).2.lists read = (ws.perform E command).2.2.lists read :=
        lists_settle _
      have hfirst : Step (ws.lists read) (order command) (ws.run E command).1
          ((ws.run E command).2.lists read) := hsettle ▸ hstep ws command hs
      exact .cons hfirst (ih (run_sound command hs))

/-- At first there are no lists. -/
theorem lists_initial (registers : Nat) (accounts : List Account) (code : σ) :
    (initial registers accounts code : Workspace σ α).lists read = List.replicate registers none := by
  rw [lists, initial, List.map_replicate, Option.bind_none]

end Workspace

end Growable
