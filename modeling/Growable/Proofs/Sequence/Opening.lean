import Growable.Proofs.Cells
import Growable.Proofs.ListAct

/-!
# Sequences in whose cells elements are shifted

Insertions and removals shift elements from cell to cell.  What they come to is said here by the elements
alone: those before a position, those behind it, and those that were made between them so far.  Work on a
single element in its slot leaves the other elements alone, however it ends (`inSlot_meets`).

* `fillBetween` is what filling an opening comes to (`fillOpening_eq`): old elements are read as if they had
  never been moved, and the opening always closes around what was made;
* `insertMade_eq`, `insertGrown_eq_former` and `insertBy_eq` — insertions, in an opening or in a larger region;
* `erase_eq`, `eraseSpan_eq` — removals, after which the elements behind close up.
-/

namespace Growable

/-- Old elements are read from their own cells while nothing is shifted. -/
theorem Cells.ofItems_former? {α : Type} (items : List α) (position : Nat) :
    (Cells.ofItems items.length items).former? position 0 = fun index => items[index]? := by
  funext index
  rw [Cells.ofItems_length, Cells.former?, Nat.add_zero, ite_self, Cells.read?, List.getElem?_map]
  cases items[index]? <;> rfl

namespace Sequence

open Act

variable {σ α β : Type} {E : Element σ α} {s : Sequence α} {w : World σ α}

/-! ## Slots -/

/-- However work on an element ends, what it leaves is in the slot of the element. -/
@[simp] theorem inSlot_meets {index : Nat} {act : Act (α × World σ α) β}
    {post : Post (Sequence α × World σ α) β} :
    (inSlot index act (s, w)).Meets post ↔
      (∀ x, s.items[index]? = some x → (act (x, w)).Meets
        ⟨fun b u => post.done b ({ s with items := s.items.set index u.1 }, u.2),
          fun e u => post.refused e ({ s with items := s.items.set index u.1 }, u.2),
          fun f u => post.faulted f ({ s with items := s.items.set index u.1 }, u.2)⟩) ∧
      (s.items[index]? = none → post.faulted (.broken .slot) (s, w)) := by
  rcases hx : s.items[index]? with _ | x
  · simp [inSlot, hx]
  · rcases hact : act (x, w) with ⟨b, u⟩ | ⟨e, u⟩ | ⟨f, u⟩ <;> simp [inSlot, hx, hact]

/-- The slot holds what the work came to. -/
theorem inSlot_of_done {index : Nat} {act : Act (α × World σ α) β} {x y : α} {b : β} {w' : World σ α}
    (hx : s.items[index]? = some x) (h : act (x, w) = .done b (y, w')) :
    inSlot index act (s, w) = .done b ({ s with items := s.items.set index y }, w') := by
  simp only [inSlot, hx, h]

/-- The slot holds what the fault left. -/
theorem inSlot_of_faulted {index : Nat} {act : Act (α × World σ α) β} {x y : α} {f : Fault} {w' : World σ α}
    (hx : s.items[index]? = some x) (h : act (x, w) = .faulted f (y, w')) :
    inSlot index act (s, w) = .faulted f ({ s with items := s.items.set index y }, w') := by
  simp only [inSlot, hx, h]

/-! ## Openings -/

/-- Puts elements where those of a sequence were. -/
def settle (items : List α) : SequenceAct σ α Unit := do
  let s ← held
  hold { s with items }

/-- Makes `count` more elements behind those that are `filled` in already, between the elements `front` and
`back`; whatever happens, these stand around what was made in the end. -/
def fillBetween (make : Nat → Act (World σ α) α) (front back : List α) :
    Nat → List α → SequenceAct σ α Unit
  | 0, filled => settle (front ++ filled ++ back)
  | count + 1, filled => do
    let x ← (inWorld (make filled.length)).onFault (settle (front ++ filled ++ back))
    fillBetween make front back count (filled ++ [x])

variable {o : Opening α} {front filled back : List α}

/-- A sequence with an opening in it is settled when the opening closes. -/
theorem close_eq (h : o.Shows front filled back) :
    (close o : SequenceAct σ α Unit) = settle (front ++ filled ++ back) := by
  rw [close, h.closed?_eq]
  rfl

/-- **An opening is filled** as if its elements were made between those before it and those behind it: from
which cells these are read meanwhile, and from where to where they are shifted, makes no difference. -/
theorem fillOpening_eq (make : (Nat → Option α) → Nat → Act (World σ α) α) {count : Nat}
    (h : o.Shows front filled back) (hcount : filled.length + count = o.count) :
    fillOpening make count o
      = fillBetween (make fun index => (front ++ back)[index]?) front back count filled := by
  induction count generalizing o filled with
  | zero => exact close_eq h
  | succ count ih =>
      have hroom : filled.length < o.count := by omega
      rw [fillOpening, fillBetween, close_eq h, h.former?_eq, h.filled_eq]
      congr 1
      funext x
      obtain ⟨o', ho', hcount', hshows⟩ := h.fill hroom x
      rw [ho']
      refine ih hshows ?_
      rw [List.length_append, List.length_singleton, hcount']
      omega

/-! ## Insertions -/

variable {position count : Nat}

/-- In a larger region, the new elements are made while the old ones are where they have always been. -/
theorem insertGrown_eq_former (make : (Nat → Option α) → Nat → Act (World σ α) α) :
    insertGrown E position count make (s, w)
      = insertGrown E position count (fun _ => make fun index => s.items[index]?) (s, w) := by
  rw [insertGrown, insertGrown, held_bind, held_bind, len, Cells.ofItems_former?]

/-- Several elements are made between those before a position and those behind it, where there is room. -/
theorem insertMade_eq (make : (Nat → Option α) → Nat → Act (World σ α) α) :
    insertMade E position count make = (do
      let s ← held
      ofExcept (checkPosition position s.len)
      if count = 0 then
        return
      let required ← ofExcept (s.required count)
      ofExcept (Capacity.check required (s.maxSize E))
      if s.capacity < required then
        insertGrown E position count make
      else
        hold { s with items := s.items.take position }
        fillBetween (make fun index => s.items[index]?) (s.items.take position) (s.items.drop position)
          count []) := by
  funext u
  obtain ⟨s, w⟩ := u
  rw [insertMade, held_bind, held_bind]
  cases hcheck : checkPosition position s.len with
  | error e => rfl
  | ok _ =>
      obtain ⟨o, ho, hcount, hshows⟩ := Opening.of?_shows (le_of_checkPosition_eq_ok hcheck) count
      have hfill := fillOpening_eq make hshows ((Nat.zero_add count).trans hcount.symm)
      rw [List.take_append_drop] at hfill
      rw [ofExcept_bind_ok, ofExcept_bind_ok, ho, ← hfill]
      rfl

/-- A single element is made between those before a position and those behind it, where there is room. -/
theorem insertBy_eq (make : Act (World σ α) α) :
    insertBy E position make = (do
      let s ← held
      ofExcept (checkPosition position s.len)
      if s.len = s.capacity then
        insertGrown E position 1 fun _ _ => make
      else
        let x ← inWorld make
        require (s.len < s.capacity) .slot
        hold { s with items := s.items.take position ++ [x] ++ s.items.drop position }) := by
  funext u
  obtain ⟨s, w⟩ := u
  rw [insertBy, held_bind, held_bind]
  cases hcheck : checkPosition position s.len with
  | error e => rfl
  | ok _ =>
      obtain ⟨o, ho, hcount, hshows⟩ := Opening.of?_shows (le_of_checkPosition_eq_ok hcheck) 1
      have hfilled : ∀ x, (do (← o.fill? x).closed?)
          = some (s.items.take position ++ [x] ++ s.items.drop position) := by
        intro x
        obtain ⟨o', ho', _, hshows'⟩ := hshows.fill (hcount ▸ Nat.zero_lt_one) x
        rw [ho', Option.bind_eq_bind, Option.bind_some, hshows'.closed?_eq]
        rfl
      rw [ofExcept_bind_ok, ofExcept_bind_ok, ho]
      simp only [Option.bind_eq_bind, Option.bind_some] at hfilled ⊢
      simp only [hfilled]
      rfl

/-! ## Removals -/

/-- An element is taken out, and those behind it close up. -/
theorem erase_eq (index : Nat) :
    (erase index : SequenceAct σ α α) = (do
      let s ← held
      let x ← ofExcept (s.get index)
      hold { s with items := s.items.eraseIdx index }
      inWorld (World.hand x)
      return x) := by
  funext u
  obtain ⟨s, w⟩ := u
  rw [erase, held_bind, held_bind]
  cases hx : s.get index with
  | error e => rfl
  | ok x =>
      have hindex : index + 1 ≤ s.items.length := (List.getElem?_eq_some_iff.mp (get_eq_ok_iff.mp hx)).1
      have hclosed := Cells.closeUp?_eq (Nat.le_add_right index 1) hindex
      rw [← List.eraseIdx_eq_take_drop_succ, ← Nat.sub_sub] at hclosed
      rw [ofExcept_bind_ok, ofExcept_bind_ok, len, hclosed]
      rfl

/-- The elements of a span are dropped while the sequence ends before them, and then those behind close up. -/
theorem eraseSpan_eq (span : Span) :
    eraseSpan E span = (do
      let s ← held
      let (start, stop) ← ofExcept (span.within s.len)
      if start = stop then
        return
      hold { s with items := s.items.take start }
      (inWorld (E.dropAll false ((s.items.drop start).take (stop - start)))).ensuring fun _ =>
        hold { s with items := s.items.take start ++ s.items.drop stop }) := by
  funext u
  obtain ⟨s, w⟩ := u
  rw [eraseSpan, held_bind, held_bind]
  cases hspan : span.within s.len with
  | error e => rfl
  | ok r =>
      obtain ⟨start, stop⟩ := r
      obtain ⟨hstart, hstop⟩ := Span.bounds_of_within hspan
      rw [ofExcept_bind_ok, ofExcept_bind_ok, len]
      dsimp only
      rw [Cells.run?_ofItems hstart hstop, Cells.closeUp?_eq hstart hstop]
      rfl

end Sequence

end Growable
