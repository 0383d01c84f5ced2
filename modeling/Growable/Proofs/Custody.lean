import Mathlib.Algebra.Order.Group.Multiset
import Mathlib.Data.List.Induction
import Mathlib.Data.Multiset.Filter
import Mathlib.Tactic.Abel
import Mathlib.Tactic.Ring
import Growable.Proofs.Post
import Growable.Region

/-!
# Custody

The storage answers for the elements and for the blocks of memory that it was given: its *assets*.  Each
event brings some assets into custody and lets others go, and it can let go only what is in custody at
that moment.  `Custody` reads a trace in this way, and comes to what is left in the end; a trace in
which something is dropped or returned that the storage does not have cannot be read.

* `Custody.entered_eq` — whatever entered has left, or is in custody still, and never both;
* `Custody.exists_of_isPrefix` — this is so at every moment of a trace, not only at its end;
* `World.live_eq_card` — the number of live elements is the number of elements in custody.

Operations are claimed to keep custody in the form `w.Owns (assets + m) → w'.Owns (assets' + m)`, where
`m` stands for everything that the operation has nothing to do with.
-/

namespace Growable

variable {σ α : Type}

/-- What the storage answers for. -/
inductive Asset (α : Type) where
  | element (x : α)
  | block (block : Block) (bytes : Nat)

namespace Asset

/-- Some elements as assets. -/
def elements (xs : List α) : Multiset (Asset α) := ((xs.map element : List (Asset α)) : Multiset _)

/-- The element that an asset is, unless it is a block. -/
def element? : Asset α → Option α
  | element x => some x
  | block _ _ => none

@[simp] theorem elements_nil : elements ([] : List α) = 0 := rfl

@[simp] theorem elements_cons (x : α) (xs : List α) :
    elements (x :: xs) = {element x} + elements xs := rfl

@[simp] theorem elements_append (xs ys : List α) :
    elements (xs ++ ys) = elements xs + elements ys := by
  simp [elements]

/-- Elements may be split anywhere. -/
theorem elements_take_add_drop (n : Nat) (xs : List α) :
    elements (xs.take n) + elements (xs.drop n) = elements xs := by
  rw [← elements_append, List.take_append_drop]

/-- The element that leaves was one of them. -/
theorem elements_eraseIdx {xs : List α} {index : Nat} {x : α} (h : xs[index]? = some x) :
    {element x} + elements (xs.eraseIdx index) = elements xs := by
  obtain ⟨hlt, hx⟩ := List.getElem?_eq_some_iff.mp h
  rw [List.eraseIdx_eq_take_drop_succ, elements_append, ← elements_take_add_drop index xs,
    List.drop_eq_getElem_cons hlt, elements_cons, hx]
  abel

/-- The element that is replaced was one of them. -/
theorem elements_set {xs : List α} {index : Nat} {old : α} (h : xs[index]? = some old) (x : α) :
    {element old} + elements (xs.set index x) = {element x} + elements xs := by
  obtain ⟨hlt, hold⟩ := List.getElem?_eq_some_iff.mp h
  rw [List.set_eq_take_append_cons_drop, if_pos hlt, elements_append, elements_cons,
    ← elements_take_add_drop index xs, List.drop_eq_getElem_cons hlt, elements_cons, hold]
  abel

/-- The order does not matter. -/
theorem elements_of_perm {xs ys : List α} (h : xs.Perm ys) : elements xs = elements ys :=
  Multiset.coe_eq_coe.mpr (h.map element)

@[simp] theorem filterMap_element?_elements (xs : List α) :
    (elements xs).filterMap element? = (xs : Multiset α) := by
  simp [elements, List.filterMap_map, Function.comp_def, element?]

end Asset

/-! ## Reading a trace -/

/-- The assets that come into custody with an event. -/
def Event.gains : Event α → Multiset (Asset α)
  | granted _ block bytes => {.block block bytes}
  | event => Asset.elements event.entering

/-- The assets that an event lets go. -/
def Event.losses : Event α → Multiset (Asset α)
  | returned _ block bytes => {.block block bytes}
  | event => Asset.elements event.leaving

/-- A trace can be read from nothing in custody, each event letting go only what is in custody then;
it ends with some assets in custody. -/
inductive Custody : List (Event α) → Multiset (Asset α) → Prop
  | nothing : Custody [] 0
  | event {trace : List (Event α)} {kept : Multiset (Asset α)} (e : Event α)
      (before : Custody trace (kept + e.losses)) : Custody (trace ++ [e]) (kept + e.gains)

/-- All elements that entered the storage in a trace. -/
def entered (trace : List (Event α)) : Multiset α := (trace.flatMap Event.entering : List α)

/-- All elements that left the storage in a trace. -/
def departed (trace : List (Event α)) : Multiset α := (trace.flatMap Event.leaving : List α)

/-- What entered by a longer trace. -/
@[simp] theorem entered_concat (trace : List (Event α)) (e : Event α) :
    entered (trace ++ [e]) = entered trace + (e.entering : Multiset α) := by
  simp [entered]

/-- What left by a longer trace. -/
@[simp] theorem departed_concat (trace : List (Event α)) (e : Event α) :
    departed (trace ++ [e]) = departed trace + (e.leaving : Multiset α) := by
  simp [departed]

/-- The elements among what an event gains are those that enter by it. -/
theorem Event.filterMap_gains (e : Event α) :
    e.gains.filterMap Asset.element? = (e.entering : Multiset α) := by
  cases e <;> rfl

/-- The elements among what an event loses are those that leave by it. -/
theorem Event.filterMap_losses (e : Event α) :
    e.losses.filterMap Asset.element? = (e.leaving : Multiset α) := by
  cases e <;> rfl

namespace Custody

/-- **Conservation.**  An element that entered has left or is in custody, counted with multiplicity. -/
theorem entered_eq {trace : List (Event α)} {m : Multiset (Asset α)} (h : Custody trace m) :
    entered trace = departed trace + m.filterMap Asset.element? := by
  induction h with
  | nothing => rfl
  | @event trace kept e before ih =>
      rw [Multiset.filterMap_add, Event.filterMap_losses] at ih
      rw [entered_concat, departed_concat, Multiset.filterMap_add, Event.filterMap_gains, ih]
      abel

/-- A trace that can be read can be read up to any moment. -/
theorem exists_of_isPrefix {trace start : List (Event α)} {m : Multiset (Asset α)}
    (h : Custody trace m) (hstart : start <+: trace) : ∃ m', Custody start m' := by
  induction h with
  | nothing =>
      obtain rfl := List.prefix_nil.mp hstart
      exact ⟨0, .nothing⟩
  | @event trace kept e before ih =>
      rcases List.prefix_concat_iff.mp hstart with rfl | hshorter
      · exact ⟨_, .event e before⟩
      · exact ih hshorter

/-- Nothing leaves the storage that has not entered it before. -/
theorem departed_le {trace start : List (Event α)} {m : Multiset (Asset α)}
    (h : Custody trace m) (hstart : start <+: trace) : departed start ≤ entered start := by
  obtain ⟨m', h'⟩ := h.exists_of_isPrefix hstart
  rw [h'.entered_eq]
  exact Multiset.le_add_right _ _

end Custody

/-! ## Worlds -/

namespace World

/-- What is in custody in a world, by its trace. -/
def Owns (w : World σ α) (m : Multiset (Asset α)) : Prop := Custody w.trace.toList m

/-- The same assets, written in another way. -/
theorem Owns.of_eq {w : World σ α} {m m' : Multiset (Asset α)} (h : w.Owns m) (heq : m = m') :
    w.Owns m' := heq ▸ h

/-- Only the trace decides what is in custody. -/
theorem Owns.of_trace {w w' : World σ α} {m : Multiset (Asset α)} (h : w.Owns m)
    (htrace : w'.trace = w.trace) : w'.Owns m := by
  unfold Owns
  rw [htrace]
  exact h

/-- The number of live elements, read off the trace, is the number of elements in custody. -/
theorem live_eq_card {w : World σ α} {m : Multiset (Asset α)} (h : w.Owns m) :
    w.live = (m.filterMap Asset.element?).card := by
  have hcount : ∀ (trace : List (Event α)),
      trace.foldl (fun (n : Int) e => n + e.entering.length - e.leaving.length) 0
        = (entered trace).card - (departed trace).card := by
    intro trace
    induction trace using List.reverseRecOn with
    | nil => rfl
    | append_singleton trace e ih =>
        simp only [List.foldl_append, List.foldl_cons, List.foldl_nil, ih, entered_concat,
          departed_concat, Multiset.card_add, Multiset.coe_card]
        push_cast
        ring
  rw [live, ← Array.foldl_toList, hcount, Custody.entered_eq h, Multiset.card_add]
  push_cast
  ring

/-- One more event in the trace moves its assets. -/
theorem Owns.push {w w' : World σ α} {kept : Multiset (Asset α)} (e : Event α)
    (h : w.Owns (kept + e.losses)) (htrace : w'.trace = w.trace.push e) :
    w'.Owns (kept + e.gains) := by
  unfold Owns
  rw [htrace, Array.toList_push]
  exact .event e h

end World

end Growable
