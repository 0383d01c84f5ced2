import Growable.Proofs.Sequence.Handover
import Growable.Sequence.Drain

/-!
# What takes the place of old contents, and what becomes of them

New contents are put together in a region of their own, and take the place of the old ones once they are
complete.  If the region is granted and no clone faults, this succeeds for sure (`assignMade_replaces`,
`copyFrom_replaced`); it is only then that the old contents are disposed of, which ends in a fault if one of
their drops does.

A drain disposes of what is left of a sequence after some elements were handed out
(`Drain.performAll_eq`).
-/

namespace Growable

open Act World

variable {σ α : Type} {E : Element σ α} {w : World σ α}

/-! ## New contents -/

/-- A region of `n` slots can be had: it can exist, and a request for it is granted, if there is one. -/
def Region.Granted (shape : Shape) (allocator : Allocator) (n : Nat) (w : World σ α) : Prop :=
  bytes? shape n = some (shape.bytes * n) ∧
    (0 < shape.bytes * n → w.Grants allocator (shape.bytes * n))

/-- A region that occupies no memory is not returned. -/
theorem Region.returning_eq_nil_iff {shape : Shape} {allocator : Allocator} {r : Region} :
    (r.returning shape allocator : List (Event α)) = [] ↔ r.block = none := by
  rw [returning]
  cases r.block with
  | none => exact iff_of_true rfl rfl
  | some block => exact iff_of_false (List.cons_ne_nil _ _) (Option.some_ne_none block)

/-- An allocation that is granted gives the fresh region and nothing else. -/
theorem Region.allocate_granted {shape : Shape} {allocator : Allocator} {n : Nat}
    (h : Granted shape allocator n w) :
    (allocate shape allocator n w).Meets (.returns fun r w' =>
      r = fresh shape n w ∧ w.Passes (r.granting shape allocator) w.code w') := by
  refine (allocate_passes shape allocator n w).imp (fun _ _ hr => hr.2) ?_ (fun _ _ => False.elim)
  intro e w' hrefused
  rcases hrefused with hnone | ⟨hpos, hdeclines, _⟩
  · cases h.1.symm.trans hnone
  · exact hdeclines (h.2 hpos)

namespace Staging

variable {s : Staging α} {make : Nat → Act (World σ α) α} {xs made : List α} {code : σ}

/-- Clones that do not fault are made in a staging area that has room for them. -/
theorem extend_done {k : Nat} (hmade : E.Clones xs w.code made code)
    (hmake : ∀ j x, xs[j]? = some x → make (k + j) = E.clone x)
    (hroom : s.stop + xs.length ≤ s.region.capacity) :
    s.extend E make k xs.length w = .done { s with elements := s.elements ++ made }
      (w.after (List.zipWith .cloned xs made) code) := by
  induction xs generalizing k s w made with
  | nil =>
      cases hmade
      rw [List.append_nil]
      exact congrArg _ w.after_nil.symm
  | cons x rest ih =>
      rcases hmade with _ | @⟨_, y, _, made, _, code₁, _, hx, hrest⟩
      have hfirst : make k = E.clone x := hmake 0 x rfl
      rw [List.length_cons] at hroom
      have hslot : s.stop < s.region.capacity := by omega
      have hmore : ({ s with elements := s.elements ++ [y] } : Staging α).stop + rest.length
          ≤ s.region.capacity := by
        simp only [stop, List.length_append, List.length_singleton] at hroom ⊢
        omega
      have hcloned : (do
          require (s.stop < s.region.capacity) .overflow
          let x ← make k
          return { s with elements := s.elements ++ [x] } : Act (World σ α) (Staging α)) w
            = .done { s with elements := s.elements ++ [y] } (w.after [.cloned x y] code₁) := by
        rw [require_eq_pure hslot, pure_bind, hfirst, bind_of_done (Element.clone_of_ok hx)]
        rfl
      have happend : s.append E (make k) w
          = .done { s with elements := s.elements ++ [y] } (w.after [.cloned x y] code₁) := by
        rw [append, onFault, hcloned]
      rw [List.length_cons, extend, bind_of_done happend, ih hrest (numbered_tail hmake) hmore, World.after_after,
        List.append_assoc]
      rfl

/-- Clones that do not fault are made in a region of exactly their number, if it can be had. -/
theorem clone_all_done {allocator : Allocator} (hgranted : Region.Granted E.toShape allocator xs.length w)
    (hmade : E.Clones xs w.code made code) (hmake : ∀ j x, xs[j]? = some x → make j = E.clone x) :
    ((do
      let s ← allocate E allocator xs.length
      let s ← s.extend E make 0 xs.length
      s.adopt : Act (World σ α) (Region × List α)) w).Meets (.returns fun r w' =>
        r = (.fresh E.toShape xs.length w, made) ∧
          w.Passes (r.1.granting E.toShape allocator ++ List.zipWith .cloned xs made) code w') := by
  rw [allocate, bind_assoc]
  apply bind_of_returns (Region.allocate_granted hgranted)
  intro r w₁ hr
  obtain ⟨rfl, hw₁⟩ := hr
  have hroom : (0 : Nat) + 0 + xs.length ≤ xs.length := by omega
  rw [pure_bind, bind_of_done (extend_done (s := ⟨allocator, .fresh E.toShape xs.length w, 0, []⟩)
    (hw₁.code_eq.symm ▸ hmade) (numbered_zero hmake) hroom)]
  exact ⟨rfl, hw₁.trans (passes_after w₁ _ code)⟩

end Staging

namespace Sequence

variable {s t : Sequence α} {xs made : List α} {code : σ}

/-- The events by which clones of some elements are put together in a region of exactly their number. -/
def building (E : Element σ α) (allocator : Allocator) (xs made : List α) (w : World σ α) :
    List (Event α) :=
  (Region.fresh E.toShape xs.length w).granting E.toShape allocator ++ List.zipWith .cloned xs made

/-- New contents take the place of the old ones, of which nothing is left then, also if a drop faults. -/
theorem replace_after {es : List (Event α)} {w₁ : World σ α} (hs : s.Valid E) (hfits : E.toShape.Fits)
    (region : Region) (items : List α) (hw₁ : w.Passes es code w₁) :
    (replace E region items (s, w₁)).Meets (.raising (E.dropFault? s.items code) fun u =>
      u.1 = { s with region, items } ∧
        w.Passes (es ++ (kind E).disposal E s code) (E.afterDrops s.items code) u.2) := by
  have hreplaced := replace_raising hs hfits region items w₁
  rw [hw₁.code_eq] at hreplaced
  exact hreplaced.raising_imp fun _ hu => ⟨hu.1, hw₁.trans hu.2⟩

/-- Where there is no room for the clones that are to be assigned, they are put together elsewhere. -/
theorem assignMade_replaces {source : Nat → Act (World σ α) α} (hs : s.Valid E) (hfits : E.toShape.Fits)
    (hsource : Reads xs source) (hfull : s.capacity < xs.length) (hmax : xs.length ≤ s.maxSize E)
    (hgranted : Region.Granted E.toShape s.handle.allocator xs.length w)
    (hmade : E.Clones xs w.code made code) :
    (assignMade E xs.length source (s, w)).Meets (.raising (E.dropFault? s.items code) fun u =>
      u.1 = { s with region := .fresh E.toShape xs.length w, items := made } ∧
        w.Passes (building E s.handle.allocator xs made w ++ (kind E).disposal E s code)
          (E.afterDrops s.items code) u.2) := by
  have hlong : ¬ xs.length ≤ s.len := Nat.not_le.mpr (hs.len_le.trans_lt hfull)
  have hmake : ∀ j x, xs[j]? = some x → (do E.clone (← source j) : Act (World σ α) α) = E.clone x := by
    intro j x hx
    rw [hsource.eq_pure j x hx, pure_bind]
  rw [assignMade, held_bind, if_neg hlong, Capacity.check_of_le hmax, ofExcept_bind_ok,
    if_neg (Nat.not_le.mpr hfull), bind_meets, inWorld_meets]
  apply (Staging.clone_all_done hgranted hmade hmake).of_returns
  intro r w₁ hr
  obtain ⟨rfl, hw₁⟩ := hr
  exact replace_after hs hfits _ made hw₁

/-- A copy of a sequence whose handle comes along, from an allocator whose blocks cannot pass. -/
theorem copyFrom_replaced (hs : s.Valid E) (hfits : E.toShape.Fits)
    (hforeign : s.handle.Foreign t.handle)
    (hgranted : Region.Granted E.toShape t.handle.allocator t.len w)
    (hmade : E.Clones t.items w.code made code) :
    (copyFrom E t (s, w)).Meets (.raising (E.dropFault? s.items code) fun u =>
      u.1 = ⟨.fresh E.toShape t.len w, made, t.handle⟩ ∧
        w.Passes (building E t.handle.allocator t.items made w ++ (kind E).disposal E s code)
          (E.afterDrops s.items code) u.2) := by
  have hmake : ∀ (j : Nat) (x : α), t.items[j]? = some x →
      (do E.clone (← ofOption .source t.items[j]?) : Act (World σ α) α) = E.clone x := by
    intro j x hx
    rw [hx]
    rfl
  rw [copyFrom_foreign hforeign, copy_eq, bind_meets, inWorld_meets, bind_meets]
  apply (Staging.clone_all_done hgranted hmade hmake).of_returns
  intro r w₁ hr
  obtain ⟨rfl, hw₁⟩ := hr
  have hdisposed := raising_inWorld (s := (⟨.fresh E.toShape t.len w, made, t.handle⟩ : Sequence α))
    (dispose_raising hs hfits w₁)
  rw [hw₁.code_eq] at hdisposed
  simp only [pure_meets, bind_meets, hold_meets]
  exact hdisposed.raising_imp fun _ hu => ⟨hu.1, hw₁.trans hu.2⟩

end Sequence

/-! ## Drains -/

namespace DrainMove

/-- What a move takes out of the elements that are left, if anything, and what it leaves. -/
def takes : DrainMove → List α → Option α × List α
  | next, xs => (xs.head?, xs.tail)
  | nextBack, xs => (xs.getLast?, xs.dropLast)
  | look, xs => (none, xs)

/-- The same for one move after another. -/
def takesAll : List DrainMove → List α → List (Option α × List α)
  | [], _ => []
  | move :: rest, xs => move.takes xs :: takesAll rest (move.takes xs).2

/-- What is left after all moves. -/
def left (moves : List DrainMove) (xs : List α) : List α :=
  moves.foldl (fun xs move => (move.takes xs).2) xs

/-- The events by which what the moves take out is handed out. -/
def handing (moves : List DrainMove) (xs : List α) : List (Event α) :=
  (takesAll moves xs).flatMap fun taken => taken.1.toList.map .handed

/-- A move leaves no more elements than there were. -/
theorem length_takes_le (move : DrainMove) (xs : List α) : (move.takes xs).2.length ≤ xs.length := by
  cases move with
  | next => exact List.length_tail ▸ Nat.sub_le _ _
  | nextBack => exact List.length_dropLast ▸ Nat.sub_le _ _
  | look => exact Nat.le_refl _

/-- Moves leave no more elements than there were. -/
theorem length_left_le (moves : List DrainMove) (xs : List α) : (left moves xs).length ≤ xs.length := by
  induction moves generalizing xs with
  | nil => exact Nat.le_refl _
  | cons move rest ih => exact (ih _).trans (move.length_takes_le xs)

end DrainMove

namespace Drain

variable {d : Drain α}

/-- What the moves come to, one after the other: what each takes, and what it leaves. -/
def answers (moves : List DrainMove) (d : Drain α) : List (Option α × Drain α) :=
  (DrainMove.takesAll moves d.rest).map fun taken => (taken.1, { d with rest := taken.2 })

/-- An element is handed out after what is left was settled. -/
theorem handOut_eq (x : α) (rest : List α) :
    (do hold { d with rest }; inWorld (World.hand x); return some x : Act (Drain α × World σ α) (Option α))
        (d, w)
      = .done (some x) ({ d with rest }, w.after [.handed x] w.code) := by
  change (do inWorld (World.hand x); return some x : Act (Drain α × World σ α) (Option α))
    ({ d with rest }, w) = _
  exact bind_of_done (inWorld_of_done (World.record_eq (.handed x) w))

/-- Nothing is handed out where nothing is left. -/
theorem handNone_eq (hrest : d.rest = []) :
    (return none : Act (Drain α × World σ α) (Option α)) (d, w)
      = .done none ({ d with rest := [] }, w.after [] w.code) := by
  rw [w.after_nil, ← hrest]
  rfl

/-- Taking from the front hands the first element out. -/
theorem next_eq : Drain.next (d, w) = .done d.rest.head? ({ d with rest := d.rest.tail },
    w.after (d.rest.head?.toList.map .handed) w.code) := by
  rw [next, held_bind]
  cases hrest : d.rest with
  | nil => exact handNone_eq hrest
  | cons x rest => exact handOut_eq x rest

/-- Taking from the back hands the last element out. -/
theorem nextBack_eq : Drain.nextBack (d, w) = .done d.rest.getLast?
    ({ d with rest := d.rest.dropLast }, w.after (d.rest.getLast?.toList.map .handed) w.code) := by
  rw [nextBack, held_bind]
  cases hlast : d.rest.getLast? with
  | none =>
      have hrest : d.rest = [] := List.getLast?_eq_none_iff.mp hlast
      rw [hrest]
      exact handNone_eq hrest
  | some x => exact handOut_eq x d.rest.dropLast

/-- A move takes an element from one of the ends, if one is left, and hands it out. -/
theorem perform_eq (move : DrainMove) (d : Drain α) (w : World σ α) :
    let taken := move.takes d.rest
    move.perform (d, w) = .done (taken.1, { d with rest := taken.2 })
      ({ d with rest := taken.2 }, w.after (taken.1.toList.map .handed) w.code) := by
  cases move with
  | next => exact bind_of_done next_eq
  | nextBack => exact bind_of_done nextBack_eq
  | look =>
      have hnothing : (w.after [] w.code : World σ α) = w := w.after_nil
      change _ = Outcome.done _ (_, w.after [] w.code)
      rw [hnothing]
      rfl

/-- Moves are performed one after the other, and none of them fails. -/
theorem performAll_eq (moves : List DrainMove) (d : Drain α) (w : World σ α) :
    (moves.mapM DrainMove.perform : Act (Drain α × World σ α) (List (Option α × Drain α))) (d, w)
      = .done (d.answers moves) ({ d with rest := DrainMove.left moves d.rest },
        w.after (DrainMove.handing moves d.rest) w.code) := by
  induction moves generalizing d w with
  | nil =>
      change _ = Outcome.done _ (_, w.after [] w.code)
      rw [w.after_nil]
      rfl
  | cons move rest ih =>
      rw [List.mapM_cons, bind_of_done (perform_eq move d w), bind_of_done (ih _ _), World.after_after]
      rfl

/-- What is left in a drain is disposed of like a sequence. -/
theorem dispose_raising {s : Sequence α} (hs : s.Valid E) (hfits : E.toShape.Fits) (moves : List DrainMove)
    (w : World σ α) :
    let rest := DrainMove.left moves s.items
    (({ Drain.of s with rest } : Drain α).dispose E false w).Meets (.raising (E.dropFault? rest w.code)
      (w.Passes (E.dropEvents rest w.code ++ s.region.returning E.toShape s.handle.allocator)
        (E.afterDrops rest w.code))) := by
  intro rest
  have hrest : ({ s with items := rest } : Sequence α).Valid E :=
    { hs with len_le := (DrainMove.length_left_le moves s.items).trans hs.len_le }
  exact Sequence.dispose_raising hrest hfits w

end Drain

end Growable
