import Growable.Proofs.Sequence.Trace
import Growable.Proofs.Span

/-!
# Spans of a sequence's own elements

Clones of a sequence's own elements are made from where these are at the time, on either side of the opening
or in the old region.  That makes no difference: it is the same as an insertion of clones of given elements,
which happen to be those that the span contains (`insertOwn_eq_insertAll`).

Where there is room for all clones and none of them faults, an insertion comes to the sequence with the clones
at the position (`insertAll_done`).
-/

namespace Growable

open Act

variable {σ α : Type} {E : Element σ α} {s : Sequence α} {w : World σ α}

/-- What an act comes to matters only in the state in which it begins. -/
theorem Act.bind_congr_state {S β δ : Type} {act act' : Act S β} {state : S} (h : act state = act' state)
    (next : β → Act S δ) : (act >>= next) state = (act' >>= next) state := by
  change (act.bind next) state = (act'.bind next) state
  unfold Act.bind
  rw [h]

/-- What follows a check is looked at only in the state in which it follows. -/
theorem Act.ofExcept_bind_congr {S β δ : Type} {checked : Except SequenceError β} {next next' : β → Act S δ}
    {state : S} (h : ∀ b, next b state = next' b state) :
    (ofExcept checked >>= next) state = (ofExcept checked >>= next') state := by
  cases checked with
  | ok b => exact h b
  | error e => rfl

/-- What is made in a staging area depends only on how the elements of these numbers are made. -/
theorem Staging.extend_congr {make make' : Nat → Act (World σ α) α} {k count : Nat}
    (h : ∀ j < count, make (k + j) = make' (k + j)) (staging : Staging α) :
    staging.extend E make k count = staging.extend E make' k count := by
  induction count generalizing k staging with
  | zero => rfl
  | succ count ih =>
      have hfirst : make k = make' k := h 0 (Nat.zero_lt_succ count)
      have hrest : ∀ j < count, make (k + 1 + j) = make' (k + 1 + j) := by
        intro j hj
        rw [Nat.add_right_comm]
        exact h (j + 1) (Nat.succ_lt_succ hj)
      rw [extend, extend, hfirst]
      exact congrArg _ (funext fun staging => ih hrest staging)

namespace Sequence

variable {make make' : Nat → Act (World σ α) α} {position count : Nat}

/-- What is made between other elements depends only on how the elements of these numbers are made. -/
theorem fillBetween_congr (front back filled : List α)
    (h : ∀ j < count, make (filled.length + j) = make' (filled.length + j)) :
    fillBetween make front back count filled = fillBetween make' front back count filled := by
  induction count generalizing filled with
  | zero => rfl
  | succ count ih =>
      have hfirst : make filled.length = make' filled.length := h 0 (Nat.zero_lt_succ count)
      have hrest : ∀ x : α, ∀ j < count,
          make ((filled ++ [x]).length + j) = make' ((filled ++ [x]).length + j) := by
        intro x j hj
        rw [List.length_append, List.length_singleton, Nat.add_right_comm]
        exact h (j + 1) (Nat.succ_lt_succ hj)
      rw [fillBetween, fillBetween, hfirst]
      exact congrArg _ (funext fun x => ih _ (hrest x))

/-- An insertion depends only on how the elements are made, with the old ones read as they were. -/
theorem insertMade_congr {make make' : (Nat → Option α) → Nat → Act (World σ α) α}
    (h : ∀ k < count, make (fun index => s.items[index]?) k = make' (fun index => s.items[index]?) k) :
    insertMade E position count make (s, w) = insertMade E position count make' (s, w) := by
  have hnumbered : ∀ j < count, make (fun index => s.items[index]?) (0 + j)
      = make' (fun index => s.items[index]?) (0 + j) := by
    intro j hj
    rw [Nat.zero_add]
    exact h j hj
  have hfill := fillBetween_congr (s.items.take position) (s.items.drop position) [] hnumbered
  have hextend := funext (Staging.extend_congr (E := E) hnumbered)
  have hgrown : insertGrown E position count make (s, w) = insertGrown E position count make' (s, w) := by
    rw [insertGrown_eq_former make, insertGrown_eq_former make', insertGrown, insertGrown, held_bind,
      held_bind]
    dsimp only
    rw [hextend]
  rw [insertMade_eq make, insertMade_eq make', held_bind, held_bind, hfill]
  apply ofExcept_bind_congr
  intro _
  by_cases hnone : count = 0
  · rw [if_pos hnone, if_pos hnone]
  rw [if_neg hnone, if_neg hnone]
  apply ofExcept_bind_congr
  intro required
  apply ofExcept_bind_congr
  intro _
  by_cases hfull : s.capacity < required
  · rw [if_pos hfull, if_pos hfull, hgrown]
  · rw [if_neg hfull, if_neg hfull]

variable {span : Span} {start stop : Nat}

/-- The elements in a span are made from where they are now, as if they had been given. -/
theorem insertOwn_eq_insertAll (hspan : span.within s.len = .ok (start, stop)) :
    insertOwn E position span (s, w)
      = insertAll E position ((s.items.drop start).take (stop - start)) (s, w) := by
  obtain ⟨_, hstop⟩ := Span.bounds_of_within hspan
  have hlength : ((s.items.drop start).take (stop - start)).length = stop - start := by
    rw [List.length_take, List.length_drop]
    exact Nat.min_eq_left (Nat.sub_le_sub_right hstop start)
  rw [insertOwn, held_bind, hspan, ofExcept_bind_ok, insertAll, hlength]
  apply insertMade_congr
  intro k hk
  rw [List.getElem?_take_of_lt hk, List.getElem?_drop]

/-! ## Insertions in place that do not fault -/

variable {sources made : List α} {code : σ}

/-- Where there is room for all clones, they come to stand at the position if none of them faults. -/
theorem insertAll_done (hposition : position ≤ s.len) (hroom : s.len + sources.length ≤ s.capacity)
    (hmax : s.len + sources.length ≤ s.maxSize E) (hmade : E.Clones sources w.code made code) :
    insertAll E position sources (s, w)
      = .done () (s.opened position made, w.after (List.zipWith .cloned sources made) code) := by
  let make : Nat → Act (World σ α) α := fun k => do E.clone (← ofOption .source sources[k]?)
  have hmake : ∀ j y, sources[j]? = some y → make (0 + j) = E.clone y := by
    intro j y hy
    simp only [make, Nat.zero_add, hy]
    rfl
  have hfilled := fillBetween_clones (s := { s with items := s.items.take position })
    (s.items.take position) (s.items.drop position) [] 0 hmake hmade
  rw [Nat.add_zero] at hfilled
  rw [insertAll, insertMade_eq, held_bind, checkPosition_eq_ok hposition, ofExcept_bind_ok]
  by_cases hnone : sources.length = 0
  · obtain rfl := List.length_eq_zero_iff.mp hnone
    cases hmade
    rw [if_pos hnone, opened, List.append_nil, List.take_append_drop]
    exact congrArg (fun w => Outcome.done () (s, w)) w.after_nil.symm
  · rw [if_neg hnone, required_of_le hmax, ofExcept_bind_ok, Capacity.check_of_le hmax, ofExcept_bind_ok,
      if_neg (Nat.not_lt.mpr hroom)]
    exact hfilled

end Sequence

end Growable
