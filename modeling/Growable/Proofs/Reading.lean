import Growable.Proofs.Custody.Blocks
import Growable.Proofs.Granting
import Growable.Proofs.Items
import Growable.Proofs.Trace

/-!
# Reading items one by one

Items that are read are put in one by one, up to the first one that is not valid (`Feed.pushValid`).  Where
nothing is declined, only the handle decides what becomes of valid items: either it admits all of them, and
then they are the new contents (`Storage.Puts.admits_all`), or it does not, and then the first one too many
is given up (`Storage.Puts.exceeds_all`).

`Reader` brings together what reading a container of one kind consists of, and `Reader.Faithful` says what
is wanted of it.
-/

namespace Growable

open Act

variable {σ α γ S : Type}

/-- As long as `I` holds, `push` puts one more item behind the others if the handle admits it; otherwise the
item is given up, which may raise a fault, and nothing else changes. -/
structure Storage.Puts (K : Storage S) (contents : S → List γ) (raises : γ → Fault → Prop)
    (I : S × World σ α → Prop) (push : γ → Act (S × World σ α) Unit) : Prop where
  admits : ∀ x s w, I (s, w) → (contents s).length < K.maxSize s → (push x (s, w)).Meets
    (.returns fun _ u => I u ∧ contents u.1 = contents s ++ [x] ∧ K.maxSize u.1 = K.maxSize s)
  exceeds : ∀ x s w, I (s, w) → K.maxSize s ≤ (contents s).length → (push x (s, w)).Meets
    ⟨fun _ _ => False, fun e u => e = .capacityExceeded ∧ u.1 = s, fun f u => u.1 = s ∧ raises x f⟩

namespace Storage.Puts

variable {K : Storage S} {contents : S → List γ} {raises : γ → Fault → Prop}
  {I : S × World σ α → Prop} {push : γ → Act (S × World σ α) Unit} {s : S} {w : World σ α}
  (h : K.Puts contents raises I push)

include h

/-- All items come behind the others if the handle admits so many. -/
theorem admits_all (xs : List γ) (hs : I (s, w)) (hle : (contents s).length + xs.length ≤ K.maxSize s) :
    ((Feed.ofList (xs.map some) .finish).pushValid push (s, w)).Meets
      (.returns fun valid u => valid = true ∧ I u ∧ contents u.1 = contents s ++ xs) := by
  induction xs generalizing s w with
  | nil => exact ⟨rfl, hs, (List.append_nil _).symm⟩
  | cons x rest ih =>
      rw [List.length_cons] at hle
      change ((do push x; (Feed.ofList (rest.map some) .finish).pushValid push) (s, w)).Meets _
      apply bind_of_returns (h.admits x s w hs (by omega))
      rintro _ ⟨t, w₁⟩ ⟨ht, hitems, hmax⟩
      dsimp only at hitems hmax
      have hlength : (contents t).length = (contents s).length + 1 := by
        rw [hitems, List.length_append, List.length_singleton]
      apply (ih ht (by omega)).of_returns
      rintro valid u ⟨hvalid, hu, hrest⟩
      exact ⟨hvalid, hu, by rw [hrest, hitems, List.append_assoc, List.singleton_append]⟩

/-- As many of the items are in as the handle admits when the first one too many comes; what follows it is
never asked for. -/
theorem exceeds_all (xs : List γ) (last : Feed (Option γ)) (hs : I (s, w))
    (hlen : (contents s).length ≤ K.maxSize s) (hlt : K.maxSize s < (contents s).length + xs.length) :
    ((Feed.ofList (xs.map some) last).pushValid push (s, w)).Meets
      (let left := K.maxSize s - (contents s).length
      ⟨fun _ _ => False, fun e u => e = .capacityExceeded ∧ contents u.1 = contents s ++ xs.take left,
        fun f u => contents u.1 = contents s ++ xs.take left ∧ ∃ x, xs[left]? = some x ∧ raises x f⟩) := by
  induction xs generalizing s w with
  | nil => exact absurd hlt (Nat.not_lt.mpr hlen)
  | cons x rest ih =>
      change ((do push x; (Feed.ofList (rest.map some) last).pushValid push) (s, w)).Meets _
      by_cases hroom : (contents s).length < K.maxSize s
      · apply bind_of_returns (h.admits x s w hs hroom)
        rintro _ ⟨t, w₁⟩ ⟨ht, hitems, hmax⟩
        dsimp only at hitems hmax
        have hlength : (contents t).length = (contents s).length + 1 := by
          rw [hitems, List.length_append, List.length_singleton]
        rw [List.length_cons] at hlt
        have hleft : K.maxSize s - (contents s).length = (K.maxSize t - (contents t).length) + 1 := by
          omega
        have hmore : contents t ++ rest.take (K.maxSize t - (contents t).length)
            = contents s ++ (x :: rest).take (K.maxSize s - (contents s).length) := by
          rw [hleft, hitems, List.take_succ_cons, List.append_assoc, List.singleton_append]
        refine (ih ht (by omega) (by omega)).imp (fun _ _ => id) ?_ ?_
        · rintro e u ⟨he, hin⟩
          exact ⟨he, hin.trans hmore⟩
        · rintro f u ⟨hin, y, hy, hraises⟩
          exact ⟨hin.trans hmore, y, by rw [hleft, List.getElem?_cons_succ, hy], hraises⟩
      · have hfull : K.maxSize s - (contents s).length = 0 := by omega
        simp only [hfull, List.take_zero, List.append_nil, List.getElem?_cons_zero]
        rw [bind_meets]
        refine (h.exceeds x s w hs (Nat.le_of_not_lt hroom)).imp (fun _ _ => False.elim) ?_ ?_
        · rintro e ⟨t, w₁⟩ ⟨he, rfl⟩
          exact ⟨he, rfl⟩
        · rintro f ⟨t, w₁⟩ ⟨rfl, hraises⟩
          exact ⟨rfl, x, rfl, hraises⟩

end Storage.Puts

/-- What an operation on a container without room asks for, if it is for bytes at all. -/
theorem Demand.Answered.asks {β : Type} {K : Storage S} {s : S} {w : World σ α} {n : Nat}
    {o : Outcome (S × World σ α) β} (h : Demand.Answered K ⟨.ok (), n, false⟩ none s w o)
    (hslot : K.slot.Lawful) (hnone : K.capacity s = 0) (hmax : n ≤ K.maxSize s)
    (hbytes : K.slot.bytes * K.slotsFor 0 = 0) :
    o.Meets ⟨fun _ u => w.Served (K.handle s).allocator.place (K.slot.bytes * K.slotsFor n) u.2,
      fun e u => e = .allocationFailure ∧ 0 < K.slot.bytes * K.slotsFor n ∧
        w.Rejected none (K.declined (K.slotsFor n) s) false u.2,
      fun _ _ => True⟩ := by
  rcases Nat.eq_zero_or_pos n with rfl | hpos
  · refine (h.stays rfl (Nat.zero_le _)).imp (fun _ _ hu => ?_) (fun _ _ => False.elim) (fun _ _ _ => trivial)
    rw [hbytes]
    exact World.served_of_evolves hu.2.unrequested
  · obtain ⟨m, hm, hgrown⟩ := h.grows hslot rfl (hnone.trans_lt hpos) hmax
    cases hm
    exact hgrown.imp (fun _ _ hu => hu.2) (fun _ _ hu => ⟨hu.2.1, hu.1, hu.2.2.2⟩) (fun _ _ _ => trivial)

/-- What happens after the first part of the work on a new container happens after it, also when the
container is given up. -/
theorem World.owning_evolves {β : Type} {J : S → Prop} {Q : Event α → Prop} {start : S} {w : World σ α}
    (discard : Bool → S → Act (World σ α) Unit) {first : Act (S × World σ α) Unit}
    {rest : Act (S × World σ α) β} (hfirst : (first (start, w)).Meets (.always fun u => J u.1))
    (hrest : ∀ w₀ : World σ α, Keeps (fun u => J u.1 ∧ w₀.Evolves Q u.2) rest)
    (hdiscard : ∀ (w₀ : World σ α) unwinding s, J s → Keeps (w₀.Evolves Q) (discard unwinding s)) :
    let w₁ := (first (start, w)).state.2
    (owning start discard (do first; rest) w).Meets
      ⟨fun r w' => J r.1 ∧ w₁.Evolves Q w', fun _ w' => w₁.Evolves Q w', fun _ w' => w₁.Evolves Q w'⟩ := by
  intro w₁
  have hdiscarded : ∀ unwinding (u : S × World σ α), J u.1 ∧ w₁.Evolves Q u.2 →
      (discard unwinding u.1 u.2).Meets (.always (w₁.Evolves Q)) :=
    fun unwinding u hu => hdiscard w₁ unwinding u.1 hu.1 u.2 hu.2
  have hwork : ((do first; rest) (start, w)).Meets (.always fun u => J u.1 ∧ w₁.Evolves Q u.2) := by
    rw [bind_meets]
    simp only [w₁]
    cases hstate : first (start, w) with
    | done _ u =>
        rw [hstate] at hfirst
        exact hrest u.2 u ⟨hfirst, .refl u.2⟩
    | refused e u =>
        rw [hstate] at hfirst
        exact ⟨hfirst, .refl u.2⟩
    | faulted f u =>
        rw [hstate] at hfirst
        exact ⟨hfirst, .refl u.2⟩
  rw [owning_meets]
  exact hwork.imp (fun _ _ => id) (fun _ u hu => hdiscarded false u hu)
    (fun _ u hu => hdiscarded true u hu)

/-- An act that neither returns nor is refused for another reason is refused, or there is a fault. -/
theorem Outcome.Meets.refused_or_faulted {β : Type} {o : Outcome S β} {e : SequenceError} {F : Fault → Prop}
    (h : o.Meets ⟨fun _ _ => False, fun e' _ => e' = e, fun f _ => F f⟩) :
    (∃ s, o = .refused e s) ∨ ∃ f s, o = .faulted f s ∧ F f := by
  cases o with
  | done b s => exact h.elim
  | refused e' s =>
      obtain rfl : e' = e := h
      exact .inl ⟨s, rfl⟩
  | faulted f s => exact .inr ⟨f, s, rfl, h⟩

/-- A trace is only ever continued. -/
theorem World.Evolves.isPrefix {Q : Event α → Prop} {w w' : World σ α} (h : w.Evolves Q w') :
    w.trace.toList <+: w'.trace.toList := by
  obtain ⟨es, _, hes, _⟩ := h
  exact ⟨es, hes.symm⟩

/-! ## What is wanted of reading -/

/-- What reading a container of one kind consists of: room that is made ahead on a hint in an empty
container, and the whole. -/
structure Reader (σ α γ S : Type) where
  storage : Storage S
  empty : Handle → S
  contents : S → List γ
  /-- The faults that giving up an item can raise. -/
  raises : γ → Fault → Prop
  ahead : Option Nat → Act (S × World σ α) Unit
  read : Option Nat → Feed (Option γ) → Handle → Act (World σ α) (Option S)

/-- Whatever was made since is gone again: all elements that entered left, and all memory that was granted
went back. -/
def World.Restored (w w' : World σ α) : Prop :=
  ∃ es, w'.trace.toList = w.trace.toList ++ es ∧ entered es = departed es ∧ granted es = returned es

/-- What enters in two stretches enters in the whole. -/
theorem entered_append (trace es : List (Event α)) : entered (trace ++ es) = entered trace + entered es := by
  simp [entered]

/-- What departs in two stretches departs in the whole. -/
theorem departed_append (trace es : List (Event α)) :
    departed (trace ++ es) = departed trace + departed es := by
  simp [departed]

/-- What is in custody before and after was not made since. -/
theorem World.restored_of_owns {w w' : World σ α} {m : Multiset (Asset α)} {Q : Event α → Prop}
    (h : w.Owns m) (h' : w'.Owns m) (hw : w.Evolves Q w') : w.Restored w' := by
  obtain ⟨es, _, hes, _⟩ := hw
  refine ⟨es, hes, ?_, ?_⟩
  · have hafter := Custody.entered_eq h'
    rw [hes, entered_append, departed_append, Custody.entered_eq h, add_right_comm] at hafter
    exact add_left_cancel (add_right_cancel hafter)
  · have hafter : Custody (w.trace.toList ++ es) m := hes ▸ h'
    have hbalance := Custody.balance h hafter
    rw [add_comm] at hbalance
    exact add_right_cancel hbalance

namespace Reader

variable (R : Reader σ α γ S)

/-- The number of items for which room is made ahead, of which there are never more than `limit`. -/
def room (limit : Nat) (hint : Option Nat) (handle : Handle) : Nat :=
  min (hint.getD 0) (min limit (R.storage.maxSize (R.empty handle)))

/-- The bytes that are asked for ahead. -/
def aheadBytes (limit : Nat) (hint : Option Nat) (handle : Handle) : Nat :=
  R.storage.slot.bytes * R.storage.slotsFor (R.room limit hint handle)

variable {R} in
/-- Where something is read of valid items, they are the contents. -/
theorem admits_of_meets {hint : Option Nat} {xs : List γ} {handle : Handle} {w : World σ α}
    (hsome : (R.read hint (.ofList (xs.map some) .finish) handle w).Meets (.returns fun r _ => r ≠ none))
    (hread : (R.read hint (.ofList (xs.map some) .finish) handle w).Meets (.whenDone fun r _ =>
      (Feed.ofList (xs.map some) .finish).readItems = .ok (r.map R.contents) ∧
        ∀ s, r = some s → R.storage.handle s = handle)) :
    ∃ s w', R.read hint (.ofList (xs.map some) .finish) handle w = .done (some s) w' ∧ R.contents s = xs ∧
      R.storage.handle s = handle := by
  have hmet := hsome.and hread
  generalize R.read hint (.ofList (xs.map some) .finish) handle w = o at hmet
  cases o with
  | done r w' =>
      cases r with
      | none => exact absurd rfl hmet.1
      | some s =>
          obtain ⟨-, hitems, hhandle⟩ := hmet
          rw [Feed.readItems_ofList] at hitems
          exact ⟨s, w', rfl, (Option.some.inj (Except.ok.inj hitems)).symm, hhandle s rfl⟩
  | refused e w' => exact hmet.1.elim
  | faulted f w' => exact hmet.1.elim

/-- What is wanted of reading under a handle, from a world on.  Only what is asked for ahead depends on the
hint. -/
structure Faithful (limit : Nat) (handle : Handle) (w : World σ α) : Prop where
  /-- What is read is what the items come to; otherwise memory is lacking, or there is a fault, of the
  items or of giving them up. -/
  comes_to : ∀ hint items, (R.read hint items handle w).Meets
    ⟨fun r _ => items.readItems = .ok (r.map R.contents), fun e _ => e.IsLack,
      fun f _ => items.ReadFaults f ∨ ∃ x, R.raises x f⟩
  /-- Valid items that the handle admits become the contents. -/
  admits : w.Generous handle.allocator.place → ∀ hint (xs : List γ),
    xs.length ≤ R.storage.maxSize (R.empty handle) →
    ∃ s w', R.read hint (.ofList (xs.map some) .finish) handle w = .done (some s) w' ∧ R.contents s = xs ∧
      R.storage.handle s = handle
  /-- More of them do not.  The one that is too many is given up, and then those before it; a fault of this
  takes the place of the error. -/
  exceeds : w.Generous handle.allocator.place → ∀ hint (xs : List γ) last,
    let most := R.storage.maxSize (R.empty handle)
    most < xs.length →
    (∃ w', R.read hint (.ofList (xs.map some) last) handle w = .refused .capacityExceeded w') ∨
      ∃ f w', R.read hint (.ofList (xs.map some) last) handle w = .faulted f w' ∧
        ((∃ x, xs[most]? = some x ∧ R.raises x f) ∨ ∃ x ∈ xs.take most, R.raises x f)
  /-- What happens before the items are put in: one request, unless it is for no bytes. -/
  asks : ∀ hint items, (R.ahead hint (R.empty handle, w)).Meets
      ⟨fun _ u => w.Served handle.allocator.place (R.aheadBytes limit hint handle) u.2,
        fun e u => e = .allocationFailure ∧ 0 < R.aheadBytes limit hint handle ∧
          w.Rejected none [.declined handle.allocator.place (R.aheadBytes limit hint handle)] false u.2,
        fun _ _ => False⟩ ∧
    (R.ahead hint (R.empty handle, w)).state.2.trace.toList
      <+: (R.read hint items handle w).state.trace.toList
  /-- Whatever is not read to the end leaves nothing behind. -/
  failing : ∀ hint items, (R.read hint items handle w).Meets
    ⟨fun r w' => r = none → w.Restored w', fun _ w' => w.Restored w', fun _ w' => w.Restored w'⟩

end Reader

end Growable
