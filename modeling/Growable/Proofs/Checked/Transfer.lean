import Growable.Program.Command
import Growable.Proofs.Checked.Assignment
import Growable.Proofs.Sequence.Transfer

/-!
# Access, reading and drains, checked

A drain keeps the slots at which its elements begin and end; each move shifts one of the two by one slot.  No
move is refused or faults, so that the ends follow the elements to whatever is left in the end
(`Drain.Follows`).
-/

namespace Growable

open Checked

variable {σ α β : Type} (E : Element σ α)

namespace Sequence

/-! ## Access -/

/-- Puts an element in the place of the one at an index, and hands that one out. -/
def exchangeChecked (index : Nat) (x : α) : Checked (Sequence α × World σ α) α := do
  let s ← ofAct Act.held
  let old ← s.accessChecked index
  holdChecked s.len { s with items := s.items.set index x }
  inWorld do
    ofAct (World.receive x)
    ofAct (World.hand old)
  return old

/-- The element at an index, which the caller takes for granted. -/
def demandChecked (index : Nat) : Checked (Sequence α × World σ α) α := do
  let s ← ofAct Act.held
  if index < s.len then
    ofOption s.items[index]?
  else
    ofAct (Act.fault (.indexOutOfBounds index s.len))

/-- Puts an element in the place of the one at an index, which the caller takes for granted. -/
def exchangeDemandedChecked (index : Nat) (x : α) : Checked (Sequence α × World σ α) α := do
  let _ ← demandChecked index
  exchangeChecked index x

/-! ## Reading -/

/-- Makes room ahead on a hint, if there is one. -/
def reserveHintedChecked (hint : Option Nat) : Checked (Sequence α × World σ α) Unit := do
  let s ← ofAct Act.held
  match hint with
  | none => return
  | some n => reserveChecked E (min n (min hintLimit (s.maxSize E)))

/-- Reads a sequence from items, or nothing if one of them is not valid. -/
def readChecked (hint : Option Nat) (items : Feed (Option α)) (handle : Handle) :
    Checked (World σ α) (Option (Sequence α)) := do
  let (s, valid) ← buildChecked E handle do
    reserveHintedChecked E hint
    pushValid (pushChecked E) items
  if valid then
    return some s
  s.disposeChecked E false
  return none

variable {E} {s : Sequence α} {w : World σ α} {m : Multiset (Asset α)}

/-- An index that passed the check has an element in its slot. -/
theorem runs_exchange (index : Nat) (x : α) :
    (exchangeChecked index x).Runs (exchange index x) (s, w) := by
  refine runs_held (runs_access fun old _ => runs_holdChecked List.length_set ?_)
  refine runs_inWorld ((runs_ofAct _ _).bind fun _ w' _ => runs_ofAct _ w') fun _ w' _ => runs_pure _ _

/-- Where an element is taken for granted, there is one or a fault, on both sides. -/
theorem runs_demand (index : Nat) : (demandChecked index).Runs (demand index) (s, w) := by
  refine runs_held ?_
  dsimp only
  by_cases hindex : index < s.len
  · have hsome : s.items[index]? = some s.items[index] := List.getElem?_eq_getElem hindex
    rw [if_pos hindex, get_eq_ok_iff.mpr hsome, hsome]
    rfl
  · have hnone : s.items[index]? = none := List.getElem?_eq_none (Nat.le_of_not_lt hindex)
    rw [if_neg hindex, get, hnone]
    rfl

theorem runs_exchangeDemanded (index : Nat) (x : α) :
    (exchangeDemandedChecked index x).Runs (exchangeDemanded index x) (s, w) :=
  (runs_demand index).bind fun _ _ _ => runs_exchange index x

/-! ## Reading -/

section Reading

variable (hfits : E.toShape.Fits)

include hfits

/-- What is reserved on a hint is within what is admitted. -/
theorem runs_reserveHinted (hs : s.Countable E) (hint : Option Nat) :
    (reserveHintedChecked E hint).Runs (reserveHinted E hint) (s, w) := by
  refine runs_held ?_
  cases hint with
  | none => exact runs_pure _ _
  | some n => exact runs_reserve hfits hs _

omit hfits in
/-- Reading up to an item that is not valid keeps the sequence counted, whatever it comes to. -/
theorem Counted.items_meets (h : Counted E m (s, w)) (hint : Option Nat) (items : Feed (Option α)) :
    ((do reserveHinted E hint; items.pushValid (push E) : SequenceAct σ α Bool) (s, w)).Meets
      ⟨fun _ u => Counted E m u, fun _ u => Counted E m u, fun _ u => Counted E m u⟩ := by
  have hreserved := h.meets (reserveHinted_meets hint h.sound)
    (keeps_reserveHinted (fun _ _ => trivial) (Nat.le_refl _) capacity_le_limit hint)
  refine Act.bind_meets.mpr (hreserved.imp ?_ (fun _ _ hu => hu.1) (fun _ _ => id))
  intro _ u hu
  have hpushed := hu.1.meets (pushValid_meets items hu.1.sound)
    (keeps_pushValid (fun _ _ => trivial) (Nat.le_refl _) capacity_le_limit items)
  exact hpushed.imp (fun _ _ hv => hv.1) (fun _ _ hv => hv.1) (fun _ _ => id)

/-- Reading builds a new sequence, and disposes of it if an item is not valid. -/
theorem runs_read (hint : Option Nat) (items : Feed (Option α)) (handle : Handle) (h : w.Owns m) :
    (readChecked E hint items handle).Runs (read E hint items handle) w := by
  have hempty := counted_empty (E := E) handle h
  have hkept := hempty.items_meets hint items
  have hcountable : ((do reserveHinted E hint; items.pushValid (push E) : SequenceAct σ α Bool)
      (empty handle, w)).Meets (.always fun u => u.1.Countable E) :=
    hkept.imp (fun _ _ hu => hu.countable) (fun _ _ hu => hu.countable) (fun _ _ hu => hu.countable)
  have hwork : (do reserveHintedChecked E hint; pushValid (pushChecked E) items :
      Checked (Sequence α × World σ α) Bool).Runs (do reserveHinted E hint; items.pushValid (push E))
      (empty handle, w) := by
    have hreserved := hempty.meets (reserveHinted_meets hint hempty.sound)
      (keeps_reserveHinted (fun _ _ => trivial) (Nat.le_refl _) capacity_le_limit hint)
    refine (runs_reserveHinted hfits hempty.countable hint).bind_of hreserved fun _ u hu => ?_
    refine runs_pushValid (I := Counted E m) (fun x v hv => runs_push hfits hv.countable x) ?_ items hu.1
    exact fun x v hv => (hv.push_meets x).imp (fun _ _ ht => ht.1) (fun _ _ _ => trivial) fun _ _ _ => trivial
  refine (runs_build hfits hwork (Outcome.meets_always.mp hcountable)).bind_of
    (Act.owning_meets_part hcountable) fun r w' hr => runs_ite (fun _ => runs_pure _ _) fun _ => ?_
  exact runs_answered _ (runs_dispose hfits hr.valid false)

end Reading

end Sequence

/-! ## Drains -/

namespace Drain

/-- The slots between which the elements are that a drain did not hand out yet. -/
structure Ends where
  front : Nat
  back : Nat

/-- The elements that are left, as many as there are slots between the ends. -/
def restChecked (ends : Ends) (d : Drain α) {S : Type} : Checked S (List α) := do
  slot d.region.capacity ends.front
  let count ← difference ends.back ends.front
  run count d.rest

/-- Hands out the first element left. -/
def nextChecked (ends : Ends) : Checked (Drain α × World σ α) (Option α × Ends) := do
  let d ← ofAct Act.held
  if ends.front = ends.back then
    return (none, ends)
  slot d.region.capacity ends.front
  let x ← ofOption d.rest.head?
  let front ← sum ends.front 1
  ofAct (Act.hold { d with rest := d.rest.tail })
  inWorld (ofAct (World.hand x))
  return (some x, { ends with front })

/-- Hands out the last element left. -/
def nextBackChecked (ends : Ends) : Checked (Drain α × World σ α) (Option α × Ends) := do
  let d ← ofAct Act.held
  if ends.front = ends.back then
    return (none, ends)
  let back ← difference ends.back 1
  slot d.region.capacity back
  let x ← ofOption d.rest.getLast?
  ofAct (Act.hold { d with rest := d.rest.dropLast })
  inWorld (ofAct (World.hand x))
  return (some x, { ends with back })

/-- Drops what is left, then releases the region. -/
def disposeChecked (ends : Ends) (unwinding : Bool) (d : Drain α) : Checked (World σ α) Unit :=
  ensuring
    (do
      let rest ← d.restChecked ends
      ofAct (E.dropAll unwinding rest))
    fun _ => d.region.releaseChecked E.toShape d.handle.allocator

/-- The ends are those of the elements that are left in a region which can be released. -/
structure Ends.Bound (ends : Ends) (shape : Shape) (d : Drain α) : Prop where
  region : d.region.Valid shape
  capacity_le : d.region.capacity ≤ Size.limit
  length : ends.front + d.rest.length = ends.back
  back_le : ends.back ≤ d.region.capacity

/-- A checked act that keeps account of the ends comes to what the plain one comes to, and to ends that are
those of the elements that are left.  Neither of the two is ever refused or faults. -/
def Follows (shape : Shape) (checked : Checked (Drain α × World σ α) (β × Ends))
    (act : Act (Drain α × World σ α) β) (u : Drain α × World σ α) : Prop :=
  ∃ ends : Ends, (act u).Meets (.returns fun _ v => ends.Bound shape v.1) ∧
    checked.Runs (do return (← act, ends)) u

variable {E} {ends : Ends} {d : Drain α} {w : World σ α} {shape : Shape}

/-- What is left of a drain is what its ends delimit. -/
theorem runs_rest (h : ends.Bound shape d) {S : Type} {s : S} :
    (d.restChecked ends).Runs (pure d.rest) s := by
  have hlength := h.length
  have hback := h.back_le
  refine runs_slot (by omega) (runs_difference (by omega) ?_)
  rw [run, if_pos (by omega)]
  rfl

/-- Where nothing is left, nothing moves. -/
theorem Ends.Bound.eq_of_nil (h : ends.Bound shape d) (hnil : d.rest = []) : ends.front = ends.back := by
  rw [← h.length, hnil, List.length_nil, Nat.add_zero]

/-- The first end of a drain moves as long as it has not met the second. -/
theorem next_follows (h : ends.Bound shape d) : Follows shape (nextChecked ends) next (d, w) := by
  have hlength := h.length
  have hback := h.back_le
  have hcapacity := h.capacity_le
  cases hrest : d.rest with
  | nil =>
      have hnone : next (d, w) = .done none (d, w) := by
        rw [next, Act.held_bind, hrest]
        rfl
      refine ⟨ends, ?_, ?_⟩
      · rw [hnone]
        exact h
      · rw [Runs, Act.bind_of_done hnone, nextChecked]
        simp only [h.eq_of_nil hrest, if_true]
        rfl
  | cons x rest =>
      rw [hrest, List.length_cons] at hlength
      refine ⟨{ ends with front := ends.front + 1 }, ?_, ?_⟩
      · simp only [next, Act.bind_meets, Act.held_meets, hrest]
        exact ⟨h.region, hcapacity, (Nat.add_right_comm _ _ _).trans hlength, hback⟩
      · rw [next, nextChecked, bind_assoc]
        refine runs_held ?_
        dsimp only
        rw [hrest, if_neg (by omega)]
        simp only [bind_assoc, pure_bind]
        refine runs_slot (by omega) (runs_value rfl (runs_sum (by omega) (runs_hold ?_)))
        exact runs_inWorld (runs_ofAct _ _) fun _ w' _ => runs_pure _ _

/-- The second end of a drain moves as long as it has not met the first. -/
theorem nextBack_follows (h : ends.Bound shape d) :
    Follows shape (nextBackChecked ends) nextBack (d, w) := by
  have hlength := h.length
  have hback := h.back_le
  cases hlast : d.rest.getLast? with
  | none =>
      have hnone : nextBack (d, w) = .done none (d, w) := by
        rw [nextBack, Act.held_bind, hlast]
        rfl
      refine ⟨ends, ?_, ?_⟩
      · rw [hnone]
        exact h
      · rw [Runs, Act.bind_of_done hnone, nextBackChecked]
        simp only [h.eq_of_nil (List.getLast?_eq_none_iff.mp hlast), if_true]
        rfl
  | some x =>
      have hpos : 0 < d.rest.length := by
        rw [List.length_pos_iff]
        intro hnil
        rw [hnil] at hlast
        cases hlast
      refine ⟨{ ends with back := ends.back - 1 }, ?_, ?_⟩
      · simp only [nextBack, Act.bind_meets, Act.held_meets, hlast]
        refine ⟨h.region, h.capacity_le, ?_, (Nat.sub_le _ _).trans hback⟩
        change ends.front + d.rest.dropLast.length = ends.back - 1
        rw [List.length_dropLast]
        omega
      · rw [nextBack, nextBackChecked, bind_assoc]
        refine runs_held ?_
        dsimp only
        rw [hlast, if_neg (by omega)]
        simp only [bind_assoc, pure_bind]
        refine runs_difference (by omega) (runs_slot (by omega) (runs_value rfl (runs_hold ?_)))
        exact runs_inWorld (runs_ofAct _ _) fun _ w' _ => runs_pure _ _

/-- Makes a move of a drain, and comes to the element handed out, if any. -/
def moveChecked (ends : Ends) : DrainMove → Checked (Drain α × World σ α) (Option α × Ends)
  | .next => nextChecked ends
  | .nextBack => nextBackChecked ends
  | .look => do
    let d ← ofAct Act.held
    let _ ← d.restChecked ends
    return (none, ends)

/-- Performs a move of a drain, and comes to the element handed out, if any, and what is left. -/
def performChecked (ends : Ends) (move : DrainMove) :
    Checked (Drain α × World σ α) ((Option α × Drain α) × Ends) := do
  let (x, ends) ← moveChecked ends move
  let d ← ofAct Act.held
  return ((x, d), ends)

/-- Performs moves one after the other. -/
def performAllChecked (ends : Ends) :
    List DrainMove → Checked (Drain α × World σ α) (List (Option α × Drain α) × Ends)
  | [] => return ([], ends)
  | move :: rest => do
    let (answer, ends) ← performChecked ends move
    let (answers, ends) ← performAllChecked ends rest
    return (answer :: answers, ends)

/-- One act after another. -/
theorem Follows.bind {γ : Type} {checked : Checked (Drain α × World σ α) (β × Ends)}
    {act : Act (Drain α × World σ α) β} {next : β × Ends → Checked (Drain α × World σ α) (γ × Ends)}
    {next' : β → Act (Drain α × World σ α) γ} {u : Drain α × World σ α} (h : Follows shape checked act u)
    (hnext : ∀ b v ends, ends.Bound shape v.1 → Follows shape (next (b, ends)) (next' b) v) :
    Follows shape (checked >>= next) (act >>= next') u := by
  obtain ⟨ends, hmeets, hruns⟩ := h
  cases hact : act u with
  | done b v =>
      rw [hact] at hmeets
      have hchecked : checked u = some (.done (b, ends) v) := by
        rw [Runs, Act.bind_of_done hact] at hruns
        exact hruns
      obtain ⟨ends', hmeets', hruns'⟩ := hnext b v ends hmeets
      refine ⟨ends', ?_, ?_⟩
      · rw [Act.bind_of_done hact]
        exact hmeets'
      · rw [Runs, bind_assoc, Act.bind_of_done hact]
        change Checked.bind checked next u = _
        rw [Checked.bind, hchecked]
        exact hruns'
  | refused e v =>
      rw [hact] at hmeets
      exact hmeets.elim
  | faulted f v =>
      rw [hact] at hmeets
      exact hmeets.elim

/-- Nothing is done to the ends. -/
theorem follows_pure {u : Drain α × World σ α} (h : ends.Bound shape u.1) (b : β) :
    Follows shape (pure (b, ends)) (pure b) u :=
  ⟨ends, h, runs_pure _ _⟩

/-- A move of a drain moves its ends. -/
theorem perform_follows (h : ends.Bound shape d) (move : DrainMove) :
    Follows shape (performChecked ends move) move.perform (d, w) := by
  have hlook : ∀ {x : Option α} {ends : Ends} {v : Drain α × World σ α}, ends.Bound shape v.1 →
      Follows shape (do let d ← ofAct Act.held; return ((x, d), ends)) (do return (x, ← Act.held)) v :=
    fun h => ⟨_, h, runs_pure _ _⟩
  cases move with
  | next => exact (next_follows h).bind fun x v ends' h' => hlook h'
  | nextBack => exact (nextBack_follows h).bind fun x v ends' h' => hlook h'
  | look =>
      have hstays : Follows shape (moveChecked ends .look) (pure none) (d, w) :=
        ⟨ends, h, runs_computed (runs_pure d (d, w)) (runs_computed (runs_rest h) (runs_pure _ _))⟩
      exact hstays.bind fun x v ends' h' => hlook h'

theorem performAll_follows (h : ends.Bound shape d) (moves : List DrainMove) :
    Follows shape (performAllChecked ends moves) (moves.mapM DrainMove.perform) (d, w) := by
  induction moves generalizing ends d w with
  | nil => exact follows_pure h []
  | cons move rest ih =>
      rw [List.mapM_cons]
      refine (perform_follows h move).bind fun answer v ends' h' => ?_
      exact (ih h').bind fun answers v' ends'' h'' => follows_pure h'' _

/-- What is left of a drain is dropped between its ends. -/
theorem runs_dispose (hfits : E.toShape.Fits) (h : ends.Bound E.toShape d) (unwinding : Bool) :
    (d.disposeChecked E ends unwinding).Runs (d.dispose E unwinding) w :=
  (runs_computed (runs_rest h) (runs_ofAct _ w)).ensuring fun _ _ _ => Region.runs_release h.region hfits _

/-- The ends of a whole sequence. -/
theorem bound_of {s : Sequence α} (hs : s.Countable E) : Ends.Bound ⟨0, s.len⟩ E.toShape (Drain.of s) :=
  ⟨hs.valid.region, hs.capacity_le, Nat.zero_add _, hs.valid.len_le⟩

/-- Takes a sequence apart move by move, then disposes of what is left. -/
def drainAllChecked (E : Element σ α) (moves : List DrainMove) (s : Sequence α) :
    Checked (World σ α) (Answer α) := do
  let (d, answers, ends) ← owning (Drain.of s) (fun _ _ => require False)
    (performAllChecked ⟨0, s.len⟩ moves)
  d.disposeChecked E ends false
  return .drained answers

/-- What owns a drain goes on with what is left, since no move fails. -/
theorem Follows.owning {γ : Type} {checked : Checked (Drain α × World σ α) (β × Ends)}
    {act : Act (Drain α × World σ α) β} (h : Follows shape checked act (d, w))
    {discard : Bool → Drain α → Checked (World σ α) Unit}
    {discard' : Bool → Drain α → Act (World σ α) Unit}
    {next : Drain α × β × Ends → Checked (World σ α) γ} {next' : Drain α × β → Act (World σ α) γ}
    (hnext : ∀ t b ends w', Ends.Bound ends shape t → (next (t, b, ends)).Runs (next' (t, b)) w') :
    (Checked.owning d discard checked >>= next).Runs (Act.owning d discard' act >>= next') w := by
  obtain ⟨ends, hmeets, hruns⟩ := h
  cases hact : act (d, w) with
  | done b v =>
      rw [hact] at hmeets
      have hchecked : checked (d, w) = some (.done (b, ends) v) := by
        rw [Runs, Act.bind_of_done hact] at hruns
        exact hruns
      have howns : Act.owning d discard' act w = .done (v.1, b) v.2 := by
        unfold Act.owning
        rw [hact]
      rw [Runs, Act.bind_of_done howns]
      change Checked.bind (Checked.owning d discard checked) next w = _
      unfold Checked.bind Checked.owning
      rw [hchecked]
      exact hnext v.1 b ends v.2 hmeets
  | refused e v =>
      rw [hact] at hmeets
      exact hmeets.elim
  | faulted f v =>
      rw [hact] at hmeets
      exact hmeets.elim

end Drain

end Growable
