import Growable.Proofs.Feed
import Mathlib.Algebra.BigOperators.Group.List.Basic
import Mathlib.Order.Bounds.Basic
import Mathlib.Tactic.Ring

/-!
# Growth while items come one by one

A container that takes items one by one grows when it is full: to twice its room, or to its least room if that
is more, and no further than its handle admits (`Capacity.next`).  If it had no room at first, what it has
come to is known in closed form (`Capacity.Doubled`): it doubled as often as it had to for the items that it
took, and the lengths at which it grew are the powers of two, times its least room, that it had passed.  Their
sum is less than twice the number of the items (`Capacity.Doubled.sum_lt`), so that to move all of them each
time is cheap on average.

What this takes of the storage is that an item which is put in is answered as one more item demands
(`Demand.Answered.widened`).
-/

namespace Growable

variable {σ α β S : Type}

namespace Capacity

/-- The capacity after `capacity` of a container that is full: twice as much, but at least `unit`, and no more
than the maximum size. -/
def next (unit maxSize capacity : Nat) : Nat := min maxSize (max unit (2 * capacity))

/-- Below the limit, growing adds at least one slot. -/
theorem lt_next {unit maxSize capacity : Nat} (hunit : 0 < unit) (hmax : capacity < maxSize) :
    capacity < next unit maxSize capacity := by
  unfold next
  omega

/-- The capacity that the policy grants for one more item, where as many are in place as there is room for. -/
theorem grow_full {capacity maxSize : Nat} (hmax : capacity < maxSize) (hlimit : maxSize ≤ Size.limit) :
    grow capacity (capacity + 1) maxSize = .ok (next least maxSize capacity) := by
  have hnext : max (capacity + 1) (min maxSize (max (2 * capacity) least)) = next least maxSize capacity := by
    unfold next least
    omega
  rw [grow_of_le hmax hlimit, hnext]

/-- What became of a container without room that took `n` items one by one, after it doubled its room `k`
times: no more often than it had to, and `lengths` are the lengths at which it grew. -/
structure Doubled (unit maxSize n capacity : Nat) (lengths : List Nat) (k : Nat) : Prop where
  least : IsLeast {k | n ≤ unit * 2 ^ k} k
  capacity_eq : capacity = min maxSize (unit * 2 ^ k)
  lengths_eq : lengths = 0 :: (List.range k).map (unit * 2 ^ ·)

section Doubled

variable {unit maxSize n capacity k : Nat} {lengths : List Nat}

/-- No power of two times a unit is zero. -/
theorem pow_pos_of_unit (hunit : 0 < unit) (k : Nat) : 0 < unit * 2 ^ k :=
  Nat.mul_pos hunit (Nat.two_pow_pos k)

/-- The first item takes the least room. -/
theorem doubled_first (hunit : 0 < unit) : Doubled unit maxSize 1 (next unit maxSize 0) [0] 0 where
  least := ⟨pow_pos_of_unit hunit 0, fun _ _ => Nat.zero_le _⟩
  capacity_eq := by
    unfold next
    rw [Nat.mul_zero, Nat.max_zero, Nat.pow_zero, Nat.mul_one]
  lengths_eq := rfl

/-- Where there is room, one more item does not take any. -/
theorem Doubled.stay (h : Doubled unit maxSize n capacity lengths k) (hroom : n < capacity) :
    Doubled unit maxSize (n + 1) capacity lengths k where
  least := by
    have hle : capacity ≤ unit * 2 ^ k := h.capacity_eq.trans_le (Nat.min_le_right _ _)
    exact ⟨Nat.succ_le_of_lt (hroom.trans_le hle), fun j hj => h.least.2 (Nat.le_of_succ_le hj)⟩
  capacity_eq := h.capacity_eq
  lengths_eq := h.lengths_eq

/-- A full container doubles its room, at a length that is its whole room so far. -/
theorem Doubled.grow (h : Doubled unit maxSize n capacity lengths k) (hunit : 0 < unit)
    (hfull : n = capacity) (hmax : capacity < maxSize) :
    Doubled unit maxSize (n + 1) (next unit maxSize capacity) (lengths ++ [n]) (k + 1) := by
  have hexact : capacity = unit * 2 ^ k := by
    have hcapacity := h.capacity_eq
    omega
  have hpos := pow_pos_of_unit hunit k
  have hdouble : unit * 2 ^ (k + 1) = 2 * capacity := by
    rw [hexact]
    ring
  have hunit_le : unit ≤ 2 * capacity := by
    have hle : unit ≤ unit * 2 ^ (k + 1) := Nat.le_mul_of_pos_right unit (Nat.two_pow_pos _)
    exact hle.trans_eq hdouble
  constructor
  · constructor
    · show n + 1 ≤ unit * 2 ^ (k + 1)
      omega
    · intro j hj
      have hj : n + 1 ≤ unit * 2 ^ j := hj
      by_contra hlt
      -- No smaller power of two suffices: it is at most the room that is full.
      have hle : unit * 2 ^ j ≤ unit * 2 ^ k :=
        Nat.mul_le_mul_left unit (Nat.pow_le_pow_right Nat.two_pos (Nat.le_of_lt_succ (Nat.lt_of_not_le hlt)))
      omega
  · unfold next
    rw [hdouble, Nat.max_eq_right hunit_le]
  · rw [h.lengths_eq, hfull, hexact, List.range_succ, List.map_append, List.cons_append]
    rfl

/-- There is one length for every growth. -/
theorem Doubled.length_lengths (h : Doubled unit maxSize n capacity lengths k) : lengths.length = k + 1 := by
  rw [h.lengths_eq, List.length_cons, List.length_map, List.length_range]

/-- The lengths at which the room was doubled come to the room that there is now, but for the least room. -/
theorem sum_map_pow (unit k : Nat) : ((List.range k).map (unit * 2 ^ ·)).sum + unit = unit * 2 ^ k := by
  induction k with
  | zero => simp
  | succ k ih =>
      rw [List.range_succ, List.map_append, List.sum_append, List.map_singleton, List.sum_singleton]
      calc ((List.range k).map (unit * 2 ^ ·)).sum + unit * 2 ^ k + unit
          = (((List.range k).map (unit * 2 ^ ·)).sum + unit) + unit * 2 ^ k := by omega
        _ = unit * 2 ^ k + unit * 2 ^ k := by rw [ih]
        _ = unit * 2 ^ (k + 1) := by ring

/-- **Growth is cheap on average.**  The lengths at which a container grew sum up to less than twice its
length. -/
theorem Doubled.sum_lt (h : Doubled unit maxSize n capacity lengths k) (hn : 0 < n) :
    lengths.sum < 2 * n := by
  have hsum := sum_map_pow unit k
  rw [h.lengths_eq, List.sum_cons, Nat.zero_add]
  cases k with
  | zero => simpa using hn
  | succ k =>
      -- One doubling less would not have been enough.
      have hshort : ¬ n ≤ unit * 2 ^ k := fun hle => Nat.not_succ_le_self k (h.least.2 hle)
      have hdouble : unit * 2 ^ (k + 1) = 2 * (unit * 2 ^ k) := by ring
      omega

/-- How a container has grown that had no room and took `n` items one by one. -/
inductive Grown (unit maxSize : Nat) : Nat → Nat → List Nat → Prop
  /-- There is no room before the first item. -/
  | fresh : Grown unit maxSize 0 0 []
  | doubled {n capacity k : Nat} {lengths : List Nat} (h : Doubled unit maxSize n capacity lengths k) :
      Grown unit maxSize n capacity lengths

/-- With a slot left, one element more changes nothing else. -/
theorem Grown.stay (h : Grown unit maxSize n capacity lengths) (hroom : n < capacity) :
    Grown unit maxSize (n + 1) capacity lengths := by
  cases h with
  | fresh => exact absurd hroom (Nat.lt_irrefl 0)
  | doubled h => exact .doubled (h.stay hroom)

/-- With no slot left, the next capacity is at most doubled, and the length is noted. -/
theorem Grown.grow (h : Grown unit maxSize n capacity lengths) (hunit : 0 < unit)
    (hfull : n = capacity) (hmax : capacity < maxSize) :
    Grown unit maxSize (n + 1) (next unit maxSize capacity) (lengths ++ [n]) := by
  cases h with
  | fresh => exact .doubled (doubled_first hunit)
  | doubled h => exact .doubled (h.grow hunit hfull hmax)

/-- The capacity stays within the limit. -/
theorem Grown.capacity_le (h : Grown unit maxSize n capacity lengths) : capacity ≤ maxSize := by
  cases h with
  | fresh => exact Nat.zero_le _
  | doubled h => exact h.capacity_eq.trans_le (Nat.min_le_left _ _)

/-- After one element there has been a first growth, so the capacity is in closed form. -/
theorem Grown.exists_doubled (h : Grown unit maxSize n capacity lengths) (hn : 0 < n) :
    ∃ k, Doubled unit maxSize n capacity lengths k := by
  cases h with
  | fresh => exact absurd hn (Nat.lt_irrefl 0)
  | doubled h => exact ⟨_, h⟩

end Doubled

end Capacity

/-! ## What is asked for -/

namespace World

variable {w w₁ w₂ : World σ α} {Q Q' : Event α → Prop} {place bytes : Nat}

/-- What allocators were asked for from one world to a later one: their places, and the bytes. -/
def requestsTo (w w' : World σ α) : List (Nat × Nat) :=
  (w'.trace.toList.drop w.trace.size).filterMap Event.request?

/-- The requests are found in the events of the stretch. -/
theorem requestsTo_of_append {es : List (Event α)} (h : w₁.trace.toList = w.trace.toList ++ es) :
    w.requestsTo w₁ = es.filterMap Event.request? := by
  rw [requestsTo, h, ← Array.length_toList, List.drop_left]

/-- In no time, nothing is requested. -/
theorem requestsTo_self (w : World σ α) : w.requestsTo w = [] :=
  requestsTo_of_append (List.append_nil _).symm

/-- The requests of two stretches follow one another. -/
theorem requestsTo_trans (h : w.Evolves Q w₁) (h' : w₁.Evolves Q' w₂) :
    w.requestsTo w₂ = w.requestsTo w₁ ++ w₁.requestsTo w₂ := by
  obtain ⟨es, _, hes, _⟩ := h
  obtain ⟨es', _, hes', _⟩ := h'
  have hboth : w₂.trace.toList = w.trace.toList ++ (es ++ es') := by rw [hes', hes, List.append_assoc]
  rw [requestsTo_of_append hes, requestsTo_of_append hes', requestsTo_of_append hboth,
    List.filterMap_append]

/-- Where no event is a request, there are no requests. -/
theorem Evolves.requestsTo_eq (h : w.Evolves (fun e => e.request? = none) w₁) : w.requestsTo w₁ = [] := by
  obtain ⟨es, _, hes, hquiet, _⟩ := h
  rw [requestsTo_of_append hes, List.filterMap_eq_nil_iff.mpr hquiet]

/-- A call that was served asked once for what it needed, if that is anything at all. -/
theorem Served.requestsTo_eq (h : w.Served place bytes w₁) :
    w.requestsTo w₁ = if bytes = 0 then [] else [(place, bytes)] := by
  obtain ⟨before, asked, after, hbefore, hasked, hafter, hw₁⟩ := h
  have hquiet : ∀ e ∈ before, e.request? = none := by
    intro e he
    have hpreliminary := hbefore e he
    cases e <;> first | rfl | cases hpreliminary
  rw [List.append_assoc, List.append_assoc] at hw₁
  rw [requestsTo_of_append hw₁, List.filterMap_append, List.filterMap_append,
    List.filterMap_eq_nil_iff.mpr hquiet, List.filterMap_eq_nil_iff.mpr hafter, List.nil_append,
    List.append_nil]
  by_cases hnone : bytes = 0
  · rw [if_pos hnone] at hasked
    rw [if_pos hnone, hasked, List.filterMap_nil]
  · rw [if_neg hnone] at hasked
    obtain ⟨block, rfl⟩ := hasked
    rw [if_neg hnone]
    rfl

end World

/-- An allocator declined with the event. -/
def Event.isDeclined : Event α → Bool
  | declined _ _ => true
  | _ => false

/-- A trace shows that nothing was declined. -/
theorem World.not_declines {w w' : World σ α} (h : w'.trace.toList.any Event.isDeclined = false) :
    ¬ w.Declines w' := by
  intro hdeclines
  obtain ⟨es, place, bytes, htrace, hmem⟩ := hdeclines
  rw [htrace, List.any_append, Bool.or_eq_false_iff] at h
  exact absurd rfl (List.any_eq_false.mp h.2 (.declined place bytes) hmem)

/-! ## One more item -/

section Widened

variable {K : Storage S} {s : S} {w : World σ α}

/-- What becomes of the room when one item is put in behind `len` others: it stays as it is where there is
some left.  Otherwise it is made larger by the growth policy, with one request for the new slots, unless these
take no bytes. -/
structure Storage.Widens (K : Storage S) (s : S) (w : World σ α) (len : Nat) (u : S × World σ α) : Prop where
  stays : len < K.capacity s → K.capacity u.1 = K.capacity s ∧ w.requestsTo u.2 = []
  grows : len = K.capacity s →
    (K.region u.1).capacity = K.slotsFor (Capacity.next Capacity.least (K.maxSize s) (K.capacity s)) ∧
      w.requestsTo u.2 = if K.slot.bytes * (K.region u.1).capacity = 0 then []
        else [((K.handle s).allocator.place, K.slot.bytes * (K.region u.1).capacity)]

/-- An item that the handle admits is refused only after an allocator declined. -/
theorem Demand.Answered.widened {len : Nat} {given : Option α} {o : Outcome (S × World σ α) β}
    (h : Demand.Answered K ⟨.ok (), len + 1, true⟩ given s w o) (hslot : K.slot.Lawful)
    (hmax : len < K.maxSize s) (hlimit : K.maxSize s ≤ Size.limit) :
    o.Meets ⟨fun _ u => K.Widens s w len u, fun _ u => w.Declines u.2, fun _ _ => True⟩ := by
  by_cases hroom : len < K.capacity s
  · apply (h.stays rfl hroom).imp
    · intro _ u hu
      have hcapacity : K.capacity u.1 = K.capacity s := K.capacity_eq u.1 s hu.1
      exact ⟨fun _ => ⟨hcapacity, hu.2.unrequested.requestsTo_eq⟩, fun hfull => absurd hroom hfull.not_lt⟩
    · exact fun _ _ => False.elim
    · exact fun _ _ _ => trivial
  · obtain ⟨room, hgrow, hgrown⟩ := h.grows hslot rfl (Nat.lt_succ_of_le (Nat.le_of_not_lt hroom)) hmax
    apply hgrown.imp
    · intro _ u hu
      refine ⟨fun hless => absurd hless hroom, fun hfull => ?_⟩
      subst hfull
      obtain rfl := Except.ok.inj (hgrow.symm.trans (Capacity.grow_full hmax hlimit))
      rw [hu.1]
      exact ⟨rfl, hu.2.requestsTo_eq⟩
    · exact fun _ _ hu => hu.2.2.2.declines
    · exact fun _ _ _ => trivial

end Widened

end Growable
