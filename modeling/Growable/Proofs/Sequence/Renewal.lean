import Growable.Proofs.Sequence.Assignment
import Growable.Proofs.Sequence.Trace

/-!
# Assignments in place

Clones that there is room for take the places of the old elements, front to back: as far as these reach, each
of them is overwritten; further clones are put behind.  `Element.renew` says what the calls of element code
come to, one for each clone, up to the first that faults.  It does so from the elements and the state of
their code alone, and an assignment comes to just that:

* `assignMade_renewed` — if no call faults, the clones are the contents, and the old elements that are left
  over are dropped;
* `assignMade_interrupted` — if the call numbered `k` faults, the `k` clones made before it stand before what
  the fault left in the place of the `k`-th old element, and before the old elements behind that one.
-/

namespace Growable

open Act World

variable {σ α : Type}

/-! ## The calls -/

/-- What the calls that make some clones come to. -/
structure Renewal (σ α : Type) where
  /-- The clones made, up to a fault. -/
  made : List α
  /-- The message of the fault, if there was one. -/
  fault? : Option String
  /-- What is in the place of the old element that was to be overwritten when there was the fault. -/
  left? : Option α
  /-- The state of the element code then. -/
  code : σ
  events : List (Event α)

/-- The elements that are there in the end: the clones, what a fault left, and the other old elements. -/
def Renewal.contents {σ α : Type} (r : Renewal σ α) (olds : List α) : List α :=
  r.made ++ r.left?.toList ++ olds.drop (r.made ++ r.left?.toList).length

namespace Element

/-- Makes the clone of `x` that takes the place of an old element, or a new place. -/
def onRenew (E : Element σ α) (old? : Option α) (x : α) : σ → Except String α × σ :=
  match old? with
  | some old => E.onOverwrite old x
  | none => E.onClone x

/-- What is in the place of the old element, if there was one, after that faulted. -/
def leftOver (E : Element σ α) (old? : Option α) (x : α) (code : σ) : Option α :=
  old?.map fun old => E.remains old x code

end Element

/-- The event of a clone in the place of an old element, or in a new place. -/
def Event.renewed (x y : α) : Option α → Event α
  | some old => overwritten old x y
  | none => cloned x y

/-- The event of a fault instead of such a clone. -/
def Event.renewFaulted (x : α) : Option α → Option α → Event α
  | some old, some left => @overwriteFaulted _ old x left
  | _, _ => cloneFaulted x

namespace Element

variable (E : Element σ α)

/-- Clones of some elements take the places of old ones, one by one, as far as these reach. -/
def renew : List α → List α → σ → Renewal σ α
  | _, [], code => ⟨[], none, none, code, []⟩
  | olds, x :: xs, code =>
    match E.onRenew olds.head? x code with
    | (.ok y, after) =>
      let r := renew olds.tail xs after
      ⟨y :: r.made, r.fault?, r.left?, r.code, .renewed x y olds.head? :: r.events⟩
    | (.error message, after) =>
      let left? := E.leftOver olds.head? x code
      ⟨[], some message, left?, after, [.renewFaulted x olds.head? left?]⟩

variable {E} {olds xs : List α} {x y : α} {code code' : σ} {message : String}

/-- After a renewal that succeeds, the next one decides. -/
theorem renew_of_ok (h : E.onRenew olds.head? x code = (.ok y, code')) :
    E.renew olds (x :: xs) code =
      let r := E.renew olds.tail xs code'
      ⟨y :: r.made, r.fault?, r.left?, r.code, .renewed x y olds.head? :: r.events⟩ := by
  rw [renew, h]

/-- A renewal that raises ends the series, with what is left in its slot. -/
theorem renew_of_error (h : E.onRenew olds.head? x code = (.error message, code')) :
    E.renew olds (x :: xs) code =
      let left? := E.leftOver olds.head? x code
      ⟨[], some message, left?, code', [.renewFaulted x olds.head? left?]⟩ := by
  rw [renew, h]

/-- The calls go on where the first ones did not fault. -/
theorem renew_append (ys : List α) (h : (E.renew olds xs code).fault? = none) :
    E.renew olds (xs ++ ys) code =
      let r := E.renew olds xs code
      let r' := E.renew (olds.drop xs.length) ys r.code
      ⟨r.made ++ r'.made, r'.fault?, r'.left?, r'.code, r.events ++ r'.events⟩ := by
  induction xs generalizing olds code with
  | nil => rfl
  | cons x rest ih =>
      rcases hx : E.onRenew olds.head? x code with ⟨result, code'⟩
      cases result with
      | ok y =>
          rw [renew_of_ok hx] at h
          rw [List.cons_append, renew_of_ok hx, renew_of_ok hx, ih h, List.length_cons,
            ← List.drop_tail]
          rfl
      | error message =>
          rw [renew_of_error hx] at h
          cases h

/-- A fault among the first calls is the end. -/
theorem renew_append_of_fault (ys : List α) (h : (E.renew olds xs code).fault? = some message) :
    E.renew olds (xs ++ ys) code = E.renew olds xs code := by
  induction xs generalizing olds code with
  | nil => cases h
  | cons x rest ih =>
      rcases hx : E.onRenew olds.head? x code with ⟨result, code'⟩
      cases result with
      | ok y =>
          rw [renew_of_ok hx] at h
          rw [List.cons_append, renew_of_ok hx, renew_of_ok hx, ih h]
      | error message => rw [List.cons_append, renew_of_error hx, renew_of_error hx]

/-- The events by which `made` came of clones of `xs`: old elements were overwritten, in order, and then
clones were made. -/
def renewals (olds xs made : List α) : List (Event α) :=
  List.zipWith3 .overwritten olds xs made
    ++ List.zipWith .cloned (xs.drop olds.length) (made.drop olds.length)

theorem renewals_nil : renewals olds xs [] = [] := by
  rw [renewals, List.drop_nil, List.zipWith_nil_right, List.append_nil]
  cases olds <;> cases xs <;> rfl

/-- The events of a series are those of its first renewal and of the others. -/
theorem renewals_cons {made : List α} : renewals olds (x :: xs) (y :: made) =
    .renewed x y olds.head? :: renewals olds.tail xs made := by
  cases olds <;> rfl

/-- As many old elements were overwritten as both reach, and the other clones are new. -/
theorem length_renewals {made : List α} (h : made.length = xs.length) :
    (List.zipWith3 Event.overwritten olds xs made).length = min olds.length xs.length ∧
      (List.zipWith Event.cloned (xs.drop olds.length) (made.drop olds.length)).length
        = xs.length - olds.length := by
  constructor
  · induction xs generalizing olds made with
    | nil => cases olds <;> rfl
    | cons x rest ih =>
        rcases olds with _ | ⟨old, olds⟩
        · rw [List.length_nil, Nat.zero_min]
          rfl
        · rcases made with _ | ⟨y, made⟩
          · cases h
          · rw [List.zipWith3, List.length_cons, ih (Nat.succ.inj h), List.length_cons, List.length_cons,
              Nat.succ_min_succ]
  · rw [List.length_zipWith, List.length_drop, List.length_drop, h, Nat.min_self]

/-- If no call faults, there was one for each clone. -/
theorem renew_done (h : (E.renew olds xs code).fault? = none) :
    (E.renew olds xs code).made.length = xs.length ∧ (E.renew olds xs code).left? = none ∧
      (E.renew olds xs code).events = renewals olds xs (E.renew olds xs code).made := by
  induction xs generalizing olds code with
  | nil => cases olds <;> exact ⟨rfl, rfl, rfl⟩
  | cons x rest ih =>
      rcases hx : E.onRenew olds.head? x code with ⟨result, code'⟩
      cases result with
      | ok y =>
          rw [renew_of_ok hx] at h ⊢
          obtain ⟨hlength, hleft, hevents⟩ := ih h
          rw [renewals_cons]
          exact ⟨congrArg (· + 1) hlength, hleft, congrArg _ hevents⟩
      | error message =>
          rw [renew_of_error hx] at h
          cases h

/-- If no call faults, all clones are there, before the old elements that are left over. -/
theorem renew_contents (h : (E.renew olds xs code).fault? = none) :
    (E.renew olds xs code).contents olds = (E.renew olds xs code).made ++ olds.drop xs.length := by
  obtain ⟨hlength, hleft, _⟩ := renew_done h
  rw [Renewal.contents, hleft, Option.toList_none, List.append_nil, hlength]

/-- If a call faults, there was one for each clone before, and it was the last. -/
theorem renew_faulted (h : (E.renew olds xs code).fault? = some message) :
    let r := E.renew olds xs code
    ∃ x code, xs[r.made.length]? = some x ∧ r.left? = E.leftOver olds[r.made.length]? x code ∧
      r.events = renewals olds xs r.made ++ [.renewFaulted x olds[r.made.length]? r.left?] := by
  induction xs generalizing olds code with
  | nil => cases h
  | cons x rest ih =>
      rcases hx : E.onRenew olds.head? x code with ⟨result, code'⟩
      cases result with
      | ok y =>
          rw [renew_of_ok hx] at h ⊢
          obtain ⟨z, code, hz, hleft, hevents⟩ := ih h
          rw [List.getElem?_tail] at hleft hevents
          refine ⟨z, code, hz, hleft, ?_⟩
          dsimp only
          rw [renewals_cons, hevents]
          rfl
      | error _ =>
          rw [renew_of_error hx]
          dsimp only
          rw [renewals_nil, List.head?_eq_getElem?]
          exact ⟨x, code, rfl, rfl, rfl⟩

section LeftOver

variable {r : Renewal σ α} (h : r.left? = E.leftOver olds[r.made.length]? x code)

include h

/-- What a fault left is in the place of one old element, if there was one there. -/
theorem leftOver_contents :
    r.contents olds = r.made ++ r.left?.toList ++ olds.drop (r.made.length + 1) := by
  rw [Renewal.contents, List.length_append, h]
  by_cases hlt : r.made.length < olds.length
  · rw [List.getElem?_eq_getElem hlt]
    rfl
  · have hle : olds.length ≤ r.made.length := Nat.le_of_not_lt hlt
    rw [List.getElem?_eq_none hle, List.drop_eq_nil_of_le (Nat.le_succ_of_le hle)]
    exact congrArg _ (List.drop_eq_nil_of_le hle)

/-- No element is lost. -/
theorem length_leftOver_contents : (r.contents olds).length = max r.made.length olds.length := by
  rw [leftOver_contents h, List.length_append, List.length_append, List.length_drop, h]
  by_cases hlt : r.made.length < olds.length
  · rw [List.getElem?_eq_getElem hlt, leftOver, Option.map_some, Option.toList_some, List.length_singleton]
    omega
  · rw [List.getElem?_eq_none (Nat.le_of_not_lt hlt), leftOver, Option.map_none, Option.toList_none,
      List.length_nil]
    omega

/-- Where the old element stays when it is not overwritten, so do all whose turn had not come. -/
theorem contents_of_stays (hstays : ∀ old x code, E.remains old x code = old) :
    r.made ++ r.left?.toList ++ olds.drop (r.made.length + 1) = r.made ++ olds.drop r.made.length := by
  rw [h, List.append_assoc]
  by_cases hlt : r.made.length < olds.length
  · rw [List.getElem?_eq_getElem hlt, leftOver, Option.map_some, hstays, List.drop_eq_getElem_cons hlt]
    rfl
  · have hle : olds.length ≤ r.made.length := Nat.le_of_not_lt hlt
    rw [List.getElem?_eq_none hle, List.drop_eq_nil_of_le (Nat.le_succ_of_le hle), List.drop_eq_nil_of_le hle]
    rfl

end LeftOver

/-- Where there is no old element, none is left. -/
theorem renew_nil_left? : (E.renew [] xs code).left? = none := by
  induction xs generalizing code with
  | nil => rfl
  | cons x rest ih =>
      rcases hx : E.onRenew ([] : List α).head? x code with ⟨result, code'⟩
      cases result with
      | ok y =>
          rw [renew_of_ok hx]
          exact ih
      | error _ =>
          rw [renew_of_error hx]
          rfl

end Element

namespace Sequence

variable {E : Element σ α} {s : Sequence α} {w : World σ α} {source : Nat → Act (World σ α) α}
  {front olds xs : List α}

/-- What is read for the places behind one more element. -/
theorem reads_behind {x : α} (y : α) (hsource : ∀ (j : Nat) (z : α), (x :: xs)[j]? = some z →
      source (front.length + j) = pure z) (j : Nat) (z : α) (hz : xs[j]? = some z) :
    source ((front ++ [y]).length + j) = pure z := by
  rw [List.length_append, List.length_singleton]
  exact numbered_tail hsource j z hz

/-- The first old element behind `front` is overwritten, and then the others. -/
theorem overwriteFrom_succ {old x : α} (count : Nat) (hread : source front.length = pure x) :
    overwriteFrom E source front.length (count + 1) ({ s with items := front ++ old :: olds }, w) = (do
        inSlot front.length (E.overwrite x)
        overwriteFrom E source (front.length + 1) count : SequenceAct σ α Unit)
      ({ s with items := front ++ old :: olds }, w) := by
  rw [overwriteFrom, hread]
  rfl

/-- A clone is put behind `front`, and then the others. -/
theorem storeFrom_succ {x : α} (count : Nat) (hread : source front.length = pure x) :
    storeFrom E source (count + 1) ({ s with items := front }, w) = (do
        let y ← inWorld (E.clone x)
        store y
        storeFrom E source count : SequenceAct σ α Unit) ({ s with items := front }, w) := by
  have hsource : source ({ s with items := front } : Sequence α).len = pure x := hread
  rw [storeFrom, held_bind, hsource, pure_bind]

/-- Clones overwrite old elements behind `front`, up to a fault. -/
theorem overwriteFrom_raising (hsource : ∀ (j : Nat) (x : α), xs[j]? = some x →
      source (front.length + j) = pure x) (hreach : xs.length ≤ olds.length) :
    let r := E.renew olds xs w.code
    (overwriteFrom E source front.length xs.length ({ s with items := front ++ olds }, w)).Meets
      (.raising r.fault? (· = ({ s with items := front ++ r.contents olds },
        w.after r.events r.code))) := by
  induction xs generalizing front olds w with
  | nil => exact ⟨rfl, Prod.ext rfl w.after_nil.symm⟩
  | cons x rest ih =>
      rcases olds with _ | ⟨old, olds⟩
      · cases hreach
      have hread : source front.length = pure x := hsource 0 x rfl
      rw [List.length_cons, overwriteFrom_succ rest.length hread]
      have hitems : ({ s with items := front ++ old :: olds } : Sequence α).items = front ++ old :: olds := rfl
      have hslot := getElem?_slot hitems
      rcases hx : E.onOverwrite old x w.code with ⟨result, code⟩
      cases result with
      | ok y =>
          have hmade := inSlot_of_done hslot (Element.overwrite_of_ok hx)
          rw [set_slot hitems] at hmade
          have hnext := ih (w := w.after [.overwritten old x y] code) (reads_behind y hsource)
            (Nat.le_of_succ_le_succ hreach)
          simp only [List.length_append, List.append_assoc, World.after_after] at hnext
          have hx : E.onRenew (old :: olds).head? x w.code = (.ok y, code) := hx
          rw [bind_of_done hmade]
          simp only [Element.renew_of_ok hx]
          exact hnext
      | error message =>
          have hfault := inSlot_of_faulted hslot (Element.overwrite_of_error hx)
          rw [set_slot hitems] at hfault
          have hx : E.onRenew (old :: olds).head? x w.code = (.error message, code) := hx
          rw [bind_of_faulted hfault]
          simp only [Element.renew_of_error hx]
          exact ⟨message, rfl, rfl, rfl⟩

/-- Clones are put behind `front`, where there is room for them, up to a fault. -/
theorem storeFrom_raising (hsource : ∀ (j : Nat) (x : α), xs[j]? = some x →
      source (front.length + j) = pure x) (hroom : front.length + xs.length ≤ s.capacity) :
    let r := E.renew [] xs w.code
    (storeFrom E source xs.length ({ s with items := front }, w)).Meets
      (.raising r.fault? (· = ({ s with items := front ++ r.made }, w.after r.events r.code))) := by
  induction xs generalizing front w with
  | nil =>
      simp only [Element.renew, List.append_nil]
      exact ⟨rfl, Prod.ext rfl w.after_nil.symm⟩
  | cons x rest ih =>
      have hread : source front.length = pure x := hsource 0 x rfl
      rw [List.length_cons] at hroom
      have hslot : front.length < s.capacity := by omega
      rw [List.length_cons, storeFrom_succ rest.length hread]
      rcases hx : E.onClone x w.code with ⟨result, code⟩
      cases result with
      | ok y =>
          have hmade : E.clone x w = .done y (w.after [.cloned x y] code) := Element.clone_of_ok hx
          have hmore : (front ++ [y]).length + rest.length ≤ s.capacity := by
            rw [List.length_append, List.length_singleton]
            omega
          have hnext := ih (w := w.after [.cloned x y] code) (reads_behind y hsource) hmore
          simp only [List.append_assoc, World.after_after] at hnext
          have hx : E.onRenew ([] : List α).head? x w.code = (.ok y, code) := hx
          simp only [Element.renew_of_ok hx, store, bind_meets, held_meets, inWorld_meets, hmade, require_meets,
            hold_meets]
          exact ⟨fun _ => hnext, fun hfull => absurd hslot hfull⟩
      | error message =>
          have hfault : E.clone x w = .faulted (.raised message) (w.after [.cloneFaulted x] code) :=
            Element.clone_of_error hx
          have hx : E.onRenew ([] : List α).head? x w.code = (.error message, code) := hx
          simp only [Element.renew_of_error hx, bind_meets, inWorld_meets, hfault, List.append_nil]
          exact ⟨message, rfl, rfl, rfl⟩

/-! ## Assignments -/

section Assignments

variable (hsource : ∀ (j : Nat) (x : α), xs[j]? = some x → source j = pure x)
include hsource

/-- As many clones as there are old elements, or fewer, overwrite the first ones. -/
theorem overwriteFrom_all (hshort : xs.length ≤ s.len) :
    let r := E.renew s.items xs w.code
    (overwriteFrom E source 0 xs.length (s, w)).Meets (.raising r.fault?
      (· = ({ s with items := r.contents s.items }, w.after r.events r.code))) := by
  have hreads : ∀ (j : Nat) (x : α), xs[j]? = some x → source (([] : List α).length + j) = pure x :=
    numbered_zero hsource
  exact overwriteFrom_raising hreads hshort

/-- More clones than there are old elements overwrite all of these, and further ones are put behind. -/
theorem overwriteFrom_storeFrom (hlong : s.len ≤ xs.length) (hroom : xs.length ≤ s.capacity) :
    let r := E.renew s.items xs w.code
    ((do overwriteFrom E source 0 s.len; storeFrom E source (xs.length - s.len) : SequenceAct σ α Unit)
      (s, w)).Meets (.raising r.fault?
        (· = ({ s with items := r.contents s.items }, w.after r.events r.code))) := by
  intro r
  -- The sources of the elements that are overwritten, and those of the further ones.
  have hsplit : xs.take s.len ++ xs.drop s.len = xs := List.take_append_drop s.len xs
  have hfirst : (xs.take s.len).length = s.len := List.length_take_of_le hlong
  have hreads : ∀ (j : Nat) (x : α), (xs.take s.len)[j]? = some x → source j = pure x := by
    intro j x hx
    obtain ⟨hj, _⟩ := List.getElem?_eq_some_iff.mp hx
    rw [List.getElem?_take_of_lt (hj.trans_eq hfirst)] at hx
    exact hsource j x hx
  have hover := overwriteFrom_all (E := E) (s := s) (w := w) hreads hfirst.le
  rw [hfirst] at hover
  generalize hr₁ : E.renew s.items (xs.take s.len) w.code = r₁ at hover
  obtain ⟨made, fault?, left?, code, events⟩ := r₁
  cases fault? with
  | some message =>
      have hr : r = ⟨made, some message, left?, code, events⟩ := by
        have hend := Element.renew_append_of_fault (xs.drop s.len) (congrArg Renewal.fault? hr₁)
        rwa [hsplit, hr₁] at hend
      rw [hr, bind_of_faulted hover.eq_faulted]
      exact ⟨message, rfl, rfl, rfl⟩
  | none =>
      have hlast : s.items.drop s.len = [] := List.drop_length
      have hlength : made.length = s.len := by
        have hall := (Element.renew_done (congrArg Renewal.fault? hr₁)).1
        rwa [hr₁, hfirst] at hall
      have hcontents : Renewal.contents ⟨made, none, left?, code, events⟩ s.items = made := by
        have hall := Element.renew_contents (congrArg Renewal.fault? hr₁)
        rwa [hr₁, hfirst, hlast, List.append_nil] at hall
      have hdone := hover.eq_done
      rw [hcontents] at hdone
      let r₂ := E.renew [] (xs.drop s.len) code
      have hr : r = ⟨made ++ r₂.made, r₂.fault?, r₂.left?, r₂.code, events ++ r₂.events⟩ := by
        have hgoes := Element.renew_append (xs.drop s.len) (congrArg Renewal.fault? hr₁)
        rwa [hsplit, hr₁, hfirst, hlast] at hgoes
      have hbehind : ∀ (j : Nat) (x : α), (xs.drop s.len)[j]? = some x →
          source (made.length + j) = pure x := by
        intro j x hx
        rw [List.getElem?_drop, ← hlength] at hx
        exact hsource _ x hx
      have hmore : made.length + (xs.drop s.len).length ≤ s.capacity := by
        rw [List.length_drop, hlength]
        omega
      have hstore := storeFrom_raising (E := E) (s := s) (w := w.after events code) hbehind hmore
      have hgone : s.items.drop (made ++ r₂.made).length = [] := by
        apply List.drop_eq_nil_of_le
        rw [List.length_append]
        exact (Nat.le_of_eq hlength.symm).trans (Nat.le_add_right _ _)
      have hends : r.contents s.items = made ++ r₂.made := by
        rw [hr, Renewal.contents, Element.renew_nil_left?, Option.toList_none, List.append_nil, hgone,
          List.append_nil]
      rw [hends, hr, bind_of_done hdone, ← List.length_drop, ← World.after_after]
      exact hstore

variable (hroom : xs.length ≤ s.capacity) (hmax : xs.length ≤ s.maxSize E)
include hroom hmax

/-- If a call faults, the clones made before it stand before what the fault left, and before the old elements
whose turn had not come. -/
theorem assignMade_interrupted {message : String} (h : (E.renew s.items xs w.code).fault? = some message) :
    let r := E.renew s.items xs w.code
    assignMade E xs.length source (s, w) = .faulted (.raised message)
      ({ s with items := r.contents s.items }, w.after r.events r.code) := by
  rw [assignMade, held_bind]
  by_cases hshort : xs.length ≤ s.len
  · have hover := overwriteFrom_all (E := E) (s := s) (w := w) hsource hshort
    simp only [h] at hover
    rw [if_pos hshort, bind_of_faulted hover.eq_faulted]
  · have hboth := overwriteFrom_storeFrom (E := E) (w := w) hsource (Nat.le_of_not_le hshort) hroom
    simp only [h] at hboth
    rw [if_neg hshort, Capacity.check_of_le hmax, ofExcept_bind_ok, if_pos hroom, hboth.eq_faulted]

/-- If no call faults, the clones are the contents, and the old elements that are left over are dropped. -/
theorem assignMade_renewed (h : (E.renew s.items xs w.code).fault? = none) :
    let r := E.renew s.items xs w.code
    let surplus := s.items.drop xs.length
    (assignMade E xs.length source (s, w)).Meets (.raising (E.dropFault? surplus r.code)
      (· = ({ s with items := r.made },
        w.after (r.events ++ E.dropEvents surplus r.code) (E.afterDrops surplus r.code)))) := by
  intro r surplus
  have hlength : r.made.length = xs.length := (Element.renew_done h).1
  have hcontents : r.contents s.items = r.made ++ surplus := Element.renew_contents h
  rw [assignMade, held_bind]
  by_cases hshort : xs.length ≤ s.len
  · have hdone := overwriteFrom_all (E := E) (w := w) hsource hshort
    simp only [h] at hdone
    rw [hcontents] at hdone
    have hdropped := truncate_raising (E := E) (s := { s with items := r.made ++ surplus })
      (w := w.after r.events r.code) xs.length
    have hkept : (r.made ++ surplus).take xs.length = r.made := by rw [← hlength, List.take_left]
    have hleft : (r.made ++ surplus).drop xs.length = surplus := by rw [← hlength, List.drop_left]
    simp only [hkept, hleft, World.after_after] at hdropped
    rw [if_pos hshort, bind_of_done hdone.eq_done]
    exact hdropped
  · have hdone := overwriteFrom_storeFrom (E := E) (w := w) hsource (Nat.le_of_not_le hshort) hroom
    simp only [h] at hdone
    have hnone : surplus = [] := List.drop_eq_nil_of_le (Nat.le_of_not_le hshort)
    rw [hcontents, hnone, List.append_nil] at hdone
    rw [if_neg hshort, Capacity.check_of_le hmax, ofExcept_bind_ok, if_pos hroom, hdone.eq_done, hnone,
      Element.dropEvents, List.append_nil]
    exact ⟨rfl, rfl⟩

end Assignments

end Sequence

end Growable
