import Mathlib.Data.List.Basic
import Growable.Sequence.Insertion

/-!
# Cells and openings

What the cells come to while elements are shifted aside and back, cell by cell: a run of cells is copied over
another one that may overlap it, and the cells that it comes from are stale from then on.

* `Cells.closeUp?_eq` — the elements behind a gap close up to those before it;
* `Opening.Shows` says which cells of an opening count, and what they hold: it holds when an opening is made
  (`Opening.of?_shows`) and goes on holding while it is filled (`Opening.Shows.fill`);
* `Opening.Shows.former?_eq` — the old elements are read where they are, whatever was made in between;
* `Opening.Shows.closed?_eq` — however many elements were made, the old ones stand around them in the end.
-/

namespace Growable

variable {α : Type}

namespace Cells

/-! ## Runs of cells -/

/-- Cells that hold an element each. -/
theorem mapM_map_some (xs : List α) : (xs.map some).mapM id = some xs := by
  induction xs with
  | nil => rfl
  | cons x xs ih => simp [ih]

/-- A run of cells that hold some elements is read as these. -/
theorem run?_of_eq {cells before after : Cells α} {xs : List α}
    (h : cells = before ++ (xs.map some ++ after)) : cells.run? before.length xs.length = some xs := by
  have hfits : before.length + xs.length ≤ cells.length := by
    rw [h, List.length_append, List.length_append, List.length_map]
    omega
  have hread : (cells.drop before.length).take xs.length = xs.map some := by
    rw [h, List.drop_left, List.take_left' (List.length_map _)]
  rw [run?, if_pos hfits, hread, mapM_map_some]

/-- A run of cells is copied over the cells from `target` on. -/
theorem copy?_of_eq {cells before run after : Cells α} (target : Nat) (h : cells = before ++ (run ++ after))
    (htarget : target + run.length ≤ cells.length) :
    cells.copy? before.length target run.length
      = some (cells.take target ++ run ++ cells.drop (target + run.length)) := by
  have hsource : before.length + run.length ≤ cells.length := by
    rw [h, List.length_append, List.length_append]
    omega
  have hread : (cells.drop before.length).take run.length = run := by
    rw [h, List.drop_left, List.take_left]
  rw [copy?, if_pos ⟨hsource, htarget⟩, hread]

/-- The elements behind a gap close up to the elements before it. -/
theorem closeUp?_of_eq {cells gap after : Cells α} {front back : List α}
    (h : cells = front.map some ++ (gap ++ (back.map some ++ after))) :
    cells.closeUp? front.length (front.length + gap.length) back.length = some (front ++ back) := by
  have hsplit : cells = (front.map some ++ gap) ++ (back.map some ++ after) := by
    rw [h, List.append_assoc]
  have hstop : (front.map some ++ gap).length = front.length + gap.length := by
    rw [List.length_append, List.length_map]
  have htarget : front.length + (back.map some).length ≤ cells.length := by
    rw [h]
    simp only [List.length_append, List.length_map]
    omega
  have hfront : cells.take front.length = front.map some := by
    rw [h, List.take_left' (List.length_map _)]
  have hcopied := copy?_of_eq _ hsplit htarget
  rw [hstop, List.length_map, hfront] at hcopied
  have hclosed : (front.map some ++ back.map some ++ cells.drop (front.length + back.length))
      = [] ++ ((front ++ back).map some ++ cells.drop (front.length + back.length)) := by
    rw [List.map_append, List.nil_append]
  have hread := run?_of_eq hclosed
  rw [List.length_nil, List.length_append] at hread
  rw [closeUp?, hcopied]
  exact hread

/-! ## The cells of a sequence -/

section Items

variable {items : List α} {start stop : Nat}

/-- The cells that elements fill hold these in order. -/
theorem ofItems_length (items : List α) : ofItems items.length items = items.map some := by
  rw [ofItems, Nat.sub_self, List.replicate_zero, List.append_nil]

/-- The elements from `start` to `stop` lie in the cells of these numbers. -/
theorem ofItems_split (items : List α) (hstart : start ≤ stop) :
    ofItems items.length items = (items.take start).map some
      ++ (((items.drop start).take (stop - start)).map some ++ ((items.drop stop).map some ++ [])) := by
  have hrest : (items.drop start).drop (stop - start) = items.drop stop := by
    rw [List.drop_drop, Nat.add_sub_cancel' hstart]
  rw [ofItems_length, List.append_nil, ← List.map_append, ← hrest, List.take_append_drop, ← List.map_append,
    List.take_append_drop]

/-- The elements of a span are read from their cells. -/
theorem run?_ofItems (hstart : start ≤ stop) (hstop : stop ≤ items.length) :
    (ofItems items.length items).run? start (stop - start)
      = some ((items.drop start).take (stop - start)) := by
  have hfront : (items.take start).length = start := List.length_take_of_le (Nat.le_trans hstart hstop)
  have hcount : ((items.drop start).take (stop - start)).length = stop - start := by
    rw [List.length_take, List.length_drop]
    omega
  have hread := run?_of_eq (ofItems_split items hstart)
  rwa [List.length_map, hfront, hcount] at hread

/-- **A gap closes.**  The elements behind a span come to stand behind those before it. -/
theorem closeUp?_eq (hstart : start ≤ stop) (hstop : stop ≤ items.length) :
    (ofItems items.length items).closeUp? start stop (items.length - stop)
      = some (items.take start ++ items.drop stop) := by
  have hfront : (items.take start).length = start := List.length_take_of_le (Nat.le_trans hstart hstop)
  have hgap : (((items.drop start).take (stop - start)).map some).length = stop - start := by
    rw [List.length_map, List.length_take, List.length_drop]
    omega
  have hclosed := closeUp?_of_eq (ofItems_split items hstart)
  rwa [hfront, hgap, Nat.add_sub_cancel' hstart, List.length_drop] at hclosed

/-- The elements behind a position are shifted by `count` cells.  Between them and the others lie as many cells
that are stale. -/
theorem copy?_aside {position : Nat} (hposition : position ≤ items.length) (count : Nat) :
    ∃ stale : Cells α, stale.length = count ∧
      (ofItems (items.length + count) items).copy? position (position + count) (items.length - position)
        = some ((items.take position).map some ++ (stale ++ (items.drop position).map some)) := by
  have hfront : ((items.take position).map some).length = position := by
    rw [List.length_map, List.length_take_of_le hposition]
  have hback : ((items.drop position).map some).length = items.length - position := by
    rw [List.length_map, List.length_drop]
  generalize hcells : ofItems (items.length + count) items = cells
  rw [ofItems, Nat.add_sub_cancel_left, ← List.take_append_drop position items, List.map_append,
    List.append_assoc] at hcells
  have hlength : cells.length = items.length + count := by
    rw [← hcells, List.length_append, List.length_append, hfront, hback, List.length_replicate]
    omega
  have hcopied := copy?_of_eq (position + count) hcells.symm (by rw [hback, hlength]; omega)
  have hkept : cells.take (position + count) = (items.take position).map some
      ++ ((items.drop position).map some ++ List.replicate count none).take count := by
    rw [← hcells, List.take_append, hfront, Nat.add_sub_cancel_left,
      List.take_of_length_le (by omega)]
  have hend : cells.drop (position + count + (items.length - position)) = [] :=
    List.drop_eq_nil_of_le (by omega)
  rw [hfront, hback, hend, List.append_nil, hkept, List.append_assoc] at hcopied
  refine ⟨_, ?_, hcopied⟩
  rw [List.length_take, List.length_append, hback, List.length_replicate]
  omega

end Items

end Cells

/-! ## Openings -/

namespace Opening

variable {o : Opening α} {front filled back items : List α} {position count : Nat}

/-- The opening lies between the elements `front` and `back`, and the elements `filled` are in it.  The other
cells of the opening are stale: whatever they hold, it does not count. -/
structure Shows (o : Opening α) (front filled back : List α) : Prop where
  position_eq : o.position = front.length
  filled_eq : o.filled = filled.length
  tail_eq : o.tail = back.length
  cells_eq : ∃ stale : Cells α, filled.length + stale.length = o.count ∧
    o.cells = front.map some ++ (filled.map some ++ (stale ++ back.map some))

/-- An opening is never filled with more than it has room for. -/
theorem Shows.filled_le (h : o.Shows front filled back) : filled.length ≤ o.count := by
  obtain ⟨stale, hcount, _⟩ := h.cells_eq
  omega

/-- Of an opening, only the cells are computed. -/
theorem of?_eq_some (h : of? items position count = some o) :
    ∃ cells, (Cells.ofItems (items.length + count) items).copy? position (position + count)
        (items.length - position) = some cells ∧ o = ⟨cells, position, count, 0, items.length - position⟩ := by
  obtain ⟨cells, hcells, ho⟩ := Option.bind_eq_some_iff.mp h
  exact ⟨cells, hcells, (Option.some.inj ho).symm⟩

/-- One more element changes only its own cell. -/
theorem fill?_eq_some {o' : Opening α} {x : α} (h : o.fill? x = some o') :
    ∃ cells, o.cells.write? (o.position + o.filled) x = some cells ∧
      o' = { o with cells, filled := o.filled + 1 } := by
  obtain ⟨cells, hcells, ho⟩ := Option.bind_eq_some_iff.mp h
  exact ⟨cells, hcells, (Option.some.inj ho).symm⟩

/-- Shifting the elements behind a position aside makes an opening there. -/
theorem of?_shows (hposition : position ≤ items.length) (count : Nat) :
    ∃ o, of? items position count = some o ∧ o.count = count ∧
      o.Shows (items.take position) [] (items.drop position) := by
  obtain ⟨stale, hstale, hshifted⟩ := Cells.copy?_aside hposition count
  have hopened : of? items position count = some ⟨(items.take position).map some
      ++ (stale ++ (items.drop position).map some), position, count, 0, items.length - position⟩ := by
    unfold of?
    dsimp only
    rw [hshifted]
    rfl
  exact ⟨_, hopened, rfl, {
    position_eq := (List.length_take_of_le hposition).symm
    filled_eq := rfl
    tail_eq := List.length_drop.symm
    cells_eq := ⟨stale, (Nat.zero_add _).trans hstale, rfl⟩ }⟩

/-- **Old elements are found where they are now**, those before the opening in their places and the others
behind it, whatever was made in it. -/
theorem Shows.former?_eq (h : o.Shows front filled back) :
    o.former? = fun index => (front ++ back)[index]? := by
  obtain ⟨stale, hcount, hcells⟩ := h.cells_eq
  funext index
  rw [former?, Cells.former?, Cells.read?, h.position_eq]
  by_cases hbefore : index < front.length
  · rw [if_pos hbefore, hcells, List.getElem?_append_left (by rwa [List.length_map]), List.getElem?_map,
      List.getElem?_append_left hbefore]
    cases front[index]? <;> rfl
  · have hbehind : front.length ≤ index := Nat.le_of_not_lt hbefore
    have hsplit : o.cells = (front.map some ++ (filled.map some ++ stale)) ++ back.map some := by
      rw [hcells, List.append_assoc, List.append_assoc]
    have hlength : (front.map some ++ (filled.map some ++ stale)).length = front.length + o.count := by
      simp only [List.length_append, List.length_map]
      omega
    rw [if_neg hbefore, hsplit, List.getElem?_append_right (by rw [hlength]; omega), hlength,
      Nat.add_sub_add_right, List.getElem?_map, List.getElem?_append_right hbehind]
    cases back[index - front.length]? <;> rfl

/-- One more element is made in the first cell of the opening that is not filled. -/
theorem Shows.fill (h : o.Shows front filled back) (hroom : filled.length < o.count) (x : α) :
    ∃ o', o.fill? x = some o' ∧ o'.count = o.count ∧ o'.Shows front (filled ++ [x]) back := by
  obtain ⟨stale, hcount, hcells⟩ := h.cells_eq
  cases stale with
  | nil => exact absurd (hcount ▸ hroom) (Nat.lt_irrefl _)
  | cons cell stale =>
      have hsplit : o.cells = (front.map some ++ filled.map some) ++ cell :: (stale ++ back.map some) := by
        rw [hcells, List.append_assoc]
        rfl
      have hindex : o.position + o.filled = (front.map some ++ filled.map some).length := by
        rw [h.position_eq, h.filled_eq, List.length_append, List.length_map, List.length_map]
      have hin : o.position + o.filled < o.cells.length := by
        rw [hindex, hsplit, @List.length_append _ _ (cell :: _), List.length_cons]
        omega
      have hwritten : o.cells.set (o.position + o.filled) (some x)
          = front.map some ++ ((filled ++ [x]).map some ++ (stale ++ back.map some)) := by
        rw [hindex, hsplit, List.set_append_right _ _ (Nat.le_refl _), Nat.sub_self, List.set_cons_zero,
          List.map_append, List.append_assoc, List.append_assoc]
        rfl
      rw [fill?, Cells.write?, if_pos hin]
      refine ⟨_, rfl, rfl, h.position_eq, ?_, h.tail_eq, stale, ?_, hwritten⟩
      · rw [List.length_append, ← h.filled_eq]
        rfl
      · rw [List.length_append, List.length_singleton]
        rw [List.length_cons] at hcount
        dsimp only
        omega

/-- **An opening closes** around the elements that were made, whether it is filled or not. -/
theorem Shows.closed?_eq (h : o.Shows front filled back) : o.closed? = some (front ++ filled ++ back) := by
  obtain ⟨stale, hcount, hcells⟩ := h.cells_eq
  have hstop : o.position + o.filled = (front ++ filled).length := by
    rw [h.position_eq, h.filled_eq, List.length_append]
  unfold closed?
  dsimp only
  by_cases hall : o.filled = o.count
  · -- Nothing is stale, and nothing has to be moved.
    have hnone : stale = [] := by
      rw [h.filled_eq] at hall
      exact List.length_eq_zero_iff.mp (by omega)
    have hfull : o.cells = [] ++ ((front ++ filled ++ back).map some ++ []) := by
      rw [hcells, hnone, List.append_nil, List.nil_append, List.nil_append, List.map_append, List.map_append,
        List.append_assoc]
    have hread := Cells.run?_of_eq hfull
    rwa [if_pos hall, hstop, h.tail_eq, ← List.length_append]
  · have hgap : o.cells = (front ++ filled).map some ++ (stale ++ (back.map some ++ [])) := by
      rw [hcells, List.append_nil, List.map_append, List.append_assoc]
    have hshifted : o.position + o.count = (front ++ filled).length + stale.length := by
      rw [h.position_eq, List.length_append]
      omega
    rw [if_neg hall, hstop, hshifted, h.tail_eq]
    exact Cells.closeUp?_of_eq hgap

end Opening

end Growable
