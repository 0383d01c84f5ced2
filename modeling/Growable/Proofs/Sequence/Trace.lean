import Growable.Proofs.Sequence.Demand
import Growable.Proofs.Trace

/-!
# What exactly insertions and removals come to

* `insertMade_interrupted` — in an opening, the clones made before the one that faults stay;
* `truncate_raising`, `eraseSpan_raising` — elements are removed, whichever of their drops fault.
-/

namespace Growable.Sequence

open Act

variable {σ α β : Type} {E : Element σ α} {s : Sequence α} {w : World σ α}

/-! ## Insertions in place -/

variable {sources made : List α} {x : α} {code code' : σ} {message : String}

section Between

variable {make : Nat → Act (World σ α) α} (front back filled : List α)

/-- Clones that do not fault are made in an opening one after the other, before anything else is. -/
theorem fillBetween_clones (count : Nat)
    (hmake : ∀ j y, sources[j]? = some y → make (filled.length + j) = E.clone y)
    (hmade : E.Clones sources w.code made code) :
    fillBetween make front back (sources.length + count) filled (s, w)
      = fillBetween make front back count (filled ++ made)
        (s, w.after (List.zipWith .cloned sources made) code) := by
  -- The clones made so far are filled in; those still to be made are the ones of `sources`.
  induction sources generalizing filled w made with
  | nil =>
      cases hmade
      rw [List.length_nil, Nat.zero_add, List.append_nil]
      exact congrArg (fun w => fillBetween make front back count filled (s, w)) w.after_nil.symm
  | cons y sources ih =>
      rcases hmade with _ | @⟨_, z, _, made, _, code₁, _, hy, hmade⟩
      have hfirst : make filled.length = E.clone y := hmake 0 y rfl
      have hdone : (onFault (inWorld (E.clone y)) (settle (front ++ filled ++ back))) (s, w)
          = .done z (s, w.after [.cloned y z] code₁) := by
        rw [onFault, inWorld, Element.clone_of_ok hy]
      have hrest : ∀ j y', sources[j]? = some y' → make ((filled ++ [z]).length + j) = E.clone y' := by
        rw [List.length_append]
        exact numbered_tail hmake
      rw [List.length_cons, Nat.add_right_comm, fillBetween, hfirst, bind_of_done hdone, ih _ hrest hmade,
        World.after_after, List.append_assoc filled]
      rfl

/-- An opening closes over the clones made before the one that faults. -/
theorem fillBetween_interrupted (rest : List α)
    (hmake : ∀ j y, (sources ++ x :: rest)[j]? = some y → make (filled.length + j) = E.clone y)
    (hmade : E.Clones sources w.code made code) (hfault : E.onClone x code = (.error message, code')) :
    fillBetween make front back (sources ++ x :: rest).length filled (s, w) = .faulted (.raised message)
      ({ s with items := front ++ (filled ++ made) ++ back },
        w.after (List.zipWith .cloned sources made ++ [.cloneFaulted x]) code') := by
  have hbefore : ∀ j y, sources[j]? = some y → make (filled.length + j) = E.clone y := by
    intro j y hy
    apply hmake j y
    rw [List.getElem?_append_left (List.getElem?_eq_some_iff.mp hy).1, hy]
  have hx : make (filled ++ made).length = E.clone x := by
    rw [List.length_append, hmade.length_eq]
    apply hmake sources.length x
    rw [List.getElem?_append_right (Nat.le_refl _), Nat.sub_self, List.getElem?_cons_zero]
  have hclosed : (onFault (inWorld (E.clone x)) (settle (front ++ (filled ++ made) ++ back)))
      (s, w.after (List.zipWith .cloned sources made) code) = .faulted (.raised message)
        ({ s with items := front ++ (filled ++ made) ++ back },
          w.after (List.zipWith .cloned sources made ++ [.cloneFaulted x]) code') := by
    rw [onFault, inWorld, Element.clone_of_error hfault, World.after_after]
    rfl
  rw [List.length_append, fillBetween_clones front back filled _ hbefore hmade, List.length_cons, fillBetween, hx,
    bind_of_faulted hclosed]

end Between

/-- The sequence with some elements more, at a position. -/
def opened (s : Sequence α) (position : Nat) (xs : List α) : Sequence α :=
  { s with items := s.items.take position ++ xs ++ s.items.drop position }

/-- An opened sequence has as many elements more as were made. -/
theorem len_opened (s : Sequence α) (position : Nat) (xs : List α) :
    (s.opened position xs).len = s.len + xs.length := by
  have hlen := congrArg List.length (List.take_append_drop position s.items)
  simp only [List.length_append] at hlen
  simp only [opened, len, List.length_append]
  omega

variable {position k : Nat}

/-- Where there is room for all clones, those made before the one that faults stay at the position, between
the elements before it and those behind it. -/
theorem insertMade_interrupted (make : (Nat → Option α) → Nat → Act (World σ α) α)
    (hmake : ∀ j y, sources[j]? = some y → make (fun index => s.items[index]?) j = E.clone y)
    (hposition : position ≤ s.len) (hroom : s.len + sources.length ≤ s.capacity)
    (hmax : s.len + sources.length ≤ s.maxSize E)
    (h : E.ClonesUpTo sources w.code k made x message code) :
    insertMade E position sources.length make (s, w) = .faulted (.raised message)
      (s.opened position made,
        w.after (List.zipWith .cloned (sources.take k) made ++ [.cloneFaulted x]) code) := by
  obtain ⟨hk, hget⟩ := List.getElem?_eq_some_iff.mp h.source
  obtain ⟨code₁, hmade, hfault⟩ := h.fault
  have hsplit : sources.take k ++ x :: sources.drop (k + 1) = sources := by
    rw [← hget, ← List.drop_eq_getElem_cons hk, List.take_append_drop]
  have hsome : sources.length ≠ 0 := by omega
  have hfill := fillBetween_interrupted (s := { s with items := s.items.take position })
    (s.items.take position) (s.items.drop position) [] (sources.drop (k + 1))
    (fun j y hy => (Nat.zero_add j).symm ▸ hmake j y (hsplit ▸ hy)) hmade hfault
  rw [hsplit] at hfill
  rw [insertMade_eq, held_bind, checkPosition_eq_ok hposition, ofExcept_bind_ok, if_neg hsome,
    required_of_le hmax, ofExcept_bind_ok, Capacity.check_of_le hmax, ofExcept_bind_ok,
    if_neg (Nat.not_lt.mpr hroom)]
  exact hfill

/-- An insertion of copies in place leaves those made before the fault. -/
theorem insertCopies_interrupted {count : Nat} {y : α} (hposition : position ≤ s.len)
    (hroom : s.len + (List.replicate count y).length ≤ s.capacity)
    (hmax : s.len + (List.replicate count y).length ≤ s.maxSize E)
    (h : E.ClonesUpTo (List.replicate count y) w.code k made x message code) :
    insertCopies E position count y (s, w) = .faulted (.raised message)
      (s.opened position made, w.after
        (List.zipWith .cloned ((List.replicate count y).take k) made ++ [.cloneFaulted x]) code) := by
  have hmake : ∀ (j : Nat) (z : α), (List.replicate count y)[j]? = some z → E.clone y = E.clone z := by
    intro j z hz
    rw [(List.mem_replicate.mp (List.mem_of_getElem? hz)).2]
  have hinsert := insertMade_interrupted (fun _ _ => E.clone y) hmake hposition hroom hmax h
  rwa [List.length_replicate] at hinsert

/-- An insertion of clones in place leaves those made before the fault. -/
theorem insertAll_interrupted (hposition : position ≤ s.len)
    (hroom : s.len + sources.length ≤ s.capacity) (hmax : s.len + sources.length ≤ s.maxSize E)
    (h : E.ClonesUpTo sources w.code k made x message code) :
    insertAll E position sources (s, w) = .faulted (.raised message)
      (s.opened position made,
        w.after (List.zipWith .cloned (sources.take k) made ++ [.cloneFaulted x]) code) := by
  apply insertMade_interrupted _ _ hposition hroom hmax h
  intro j y hy
  rw [hy]
  rfl

/-- The sequence's own elements are read where they are now, on either side of the opening. -/
theorem insertOwn_interrupted {span : Span} {start stop : Nat}
    (hspan : span.within s.len = .ok (start, stop)) (hposition : position ≤ s.len)
    (hroom : s.len + ((s.items.drop start).take (stop - start)).length ≤ s.capacity)
    (hmax : s.len + ((s.items.drop start).take (stop - start)).length ≤ s.maxSize E)
    (h : E.ClonesUpTo ((s.items.drop start).take (stop - start)) w.code k made x message code) :
    insertOwn E position span (s, w) = .faulted (.raised message)
      (s.opened position made, w.after (List.zipWith .cloned
        (((s.items.drop start).take (stop - start)).take k) made ++ [.cloneFaulted x]) code) := by
  obtain ⟨_, hstop⟩ := Span.bounds_of_within hspan
  have hlength : ((s.items.drop start).take (stop - start)).length = stop - start := by
    rw [List.length_take, List.length_drop]
    exact Nat.min_eq_left (Nat.sub_le_sub_right hstop start)
  have hmake : ∀ j y, ((s.items.drop start).take (stop - start))[j]? = some y →
      (do E.clone (← ofOption .source s.items[start + j]?)) = E.clone y := by
    intro j y hy
    obtain ⟨hj, _⟩ := List.getElem?_eq_some_iff.mp hy
    rw [List.getElem?_take_of_lt (hj.trans_eq hlength), List.getElem?_drop] at hy
    rw [hy]
    rfl
  have hinsert := insertMade_interrupted
    (fun former? j => do E.clone (← ofOption .source (former? (start + j))))
    hmake hposition hroom hmax h
  rw [hlength] at hinsert
  rw [insertOwn, held_bind, hspan]
  exact hinsert

/-! ## Removals -/

/-- The elements behind the first `n` are dropped, after the length was lowered. -/
theorem truncate_raising (n : Nat) :
    (truncate E n (s, w)).Meets (.raising (E.dropFault? (s.items.drop n) w.code)
      (· = ({ s with items := s.items.take n },
        w.after (E.dropEvents (s.items.drop n) w.code) (E.afterDrops (s.items.drop n) w.code)))) := by
  rw [truncate, held_bind]
  by_cases hlong : s.len ≤ n
  · rw [if_pos hlong, List.drop_eq_nil_of_le hlong, List.take_of_length_le hlong]
    exact ⟨rfl, Prod.ext rfl w.after_nil.symm⟩
  · rw [if_neg hlong]
    simp only [bind_meets, hold_meets]
    have hdropped := raising_inWorld (s := { s with items := s.items.take n })
      (E.dropAll_raising (s.items.drop n) w)
    exact hdropped.raising_imp fun _ hu => Prod.ext hu.1 hu.2

/-- The elements of a span are dropped while the sequence ends before them; then those behind close up. -/
theorem eraseSpan_raising {span : Span} {start stop : Nat}
    (hspan : span.within s.len = .ok (start, stop)) :
    (eraseSpan E span (s, w)).Meets
      (.raising (E.dropFault? ((s.items.drop start).take (stop - start)) w.code)
        (· = ({ s with items := s.items.take start ++ s.items.drop stop },
          w.after (E.dropEvents ((s.items.drop start).take (stop - start)) w.code)
            (E.afterDrops ((s.items.drop start).take (stop - start)) w.code)))) := by
  rw [eraseSpan_eq, held_bind, hspan, ofExcept_bind_ok]
  dsimp only
  by_cases hempty : start = stop
  · rw [if_pos hempty, hempty, List.take_append_drop, Nat.sub_self, List.take_zero]
    exact ⟨rfl, Prod.ext rfl w.after_nil.symm⟩
  · rw [if_neg hempty]
    simp only [bind_meets, hold_meets, ensuring_meets, inWorld_meets]
    refine (E.dropAll_raising _ w).imp ?_ (fun _ _ => False.elim) ?_
    · exact fun _ w' h => ⟨h.1, Prod.ext rfl h.2⟩
    · intro f w' h
      obtain ⟨message, hsome, hf, hw'⟩ := h
      exact ⟨message, hsome, hf, Prod.ext rfl hw'⟩

/-- A sequence is not made longer by what it has room for already. -/
theorem resizeMade_of_le {n : Nat} (make : Nat → Act (World σ α) α) (hshort : n ≤ s.len) :
    resizeMade E n make (s, w) = truncate E n (s, w) := by
  rw [resizeMade, held_bind, if_pos hshort]

end Growable.Sequence
