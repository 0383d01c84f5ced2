import Growable.BitSequence
import Growable.Capacity
import Growable.Proofs.Word

/-!
# The growth policy in closed form

A capacity is doubled, but it comes to at least four slots, to no more than the maximum size, and to what is
required in any case.  The policy computes this with sizes, where doubling stops at the largest one; as long as
the maximum size is a size, that makes no difference (`grow_of_le`).

* `grow_determined` — what the policy grants, for all sizes, and that it never refuses without need.
-/

namespace Growable

/-- The bits that a handle admits can be counted. -/
theorem BitSequence.maxWords_le_limit (s : BitSequence) : s.maxWords * Word.size ≤ Size.limit :=
  (Nat.mul_le_mul_right _ (Nat.min_le_right _ _)).trans (Nat.div_mul_le_self _ _)

namespace Capacity

variable {old required maxSize : Nat}

/-- What the handle admits passes the check. -/
theorem check_of_le (h : required ≤ maxSize) : check required maxSize = .ok () := check_eq_ok_iff.mpr h

/-- What the handle does not admit fails it. -/
theorem check_of_lt (h : maxSize < required) : check required maxSize = .error .capacityExceeded :=
  if_pos h

/-- A capacity that the handle does not admit is not grown to. -/
theorem grow_of_lt (h : maxSize < required) : grow old required maxSize = .error .capacityExceeded := by
  unfold grow
  rw [check_of_lt h]
  rfl

/-- A capacity that the handle admits can always be grown to. -/
theorem exists_grow (old : Nat) (h : required ≤ maxSize) : ∃ n, grow old required maxSize = .ok n := by
  unfold grow
  rw [check_of_le h]
  exact ⟨_, rfl⟩

/-- The doubled capacity is cut at the maximum size anyway, so that it need not be a size itself. -/
theorem grow_of_le (h : required ≤ maxSize) (hlimit : maxSize ≤ Size.limit) :
    grow old required maxSize = .ok (max required (min maxSize (max (2 * old) least))) := by
  have hleast : least ≤ Size.limit := by decide
  have hclamped : min (max (Size.double old) least) maxSize = min maxSize (max (2 * old) least) := by
    rw [Size.double_eq_min]
    omega
  unfold grow
  rw [check_of_le h]
  exact congrArg (fun clamped => Except.ok (max required clamped)) hclamped

/-- A refusal is for a requirement beyond the maximum size, and for nothing else. -/
theorem grow_eq_error_iff : grow old required maxSize = .error .capacityExceeded ↔ maxSize < required := by
  refine ⟨fun hrefused => ?_, grow_of_lt⟩
  by_contra hle
  obtain ⟨n, hgranted⟩ := exists_grow old (Nat.le_of_not_lt hle)
  cases hgranted.symm.trans hrefused

/-- More capacity, a larger requirement and a larger maximum size do not make less of what is granted. -/
theorem grow_mono {old' required' maxSize' capacity capacity' : Nat} (hold : old ≤ old')
    (hrequired : required ≤ required') (hmax : maxSize ≤ maxSize') (hlimit : maxSize' ≤ Size.limit)
    (h : grow old required maxSize = .ok capacity) (h' : grow old' required' maxSize' = .ok capacity') :
    capacity ≤ capacity' := by
  obtain ⟨hlow, hhigh⟩ := grow_bounds h
  obtain ⟨hlow', hhigh'⟩ := grow_bounds h'
  have hcapacity := (grow_of_le (hlow.trans hhigh) (hmax.trans hlimit)).symm.trans h
  have hcapacity' := (grow_of_le (hlow'.trans hhigh') hlimit).symm.trans h'
  rw [← Except.ok.inj hcapacity, ← Except.ok.inj hcapacity']
  gcongr

/-- **The growth policy, for all sizes.**  Only a requirement beyond the maximum size is refused.  What is
granted is twice the old capacity, as a natural number, but at least four, at most the maximum size, and what
is required in any case: it lies between the requirement and the maximum size, and grows with each of the three
numbers.  If the maximum size comes to whole words, what is granted does not pass it when it is rounded up to
whole words, either.  The maximum size of a bit sequence always comes to whole words, and is a size. -/
theorem grow_determined (hlimit : maxSize ≤ Size.limit) :
    (grow old required maxSize = .error .capacityExceeded ↔ maxSize < required) ∧
    (required ≤ maxSize →
      grow old required maxSize = .ok (max required (min maxSize (max (2 * old) 4)))) ∧
    (∀ capacity, grow old required maxSize = .ok capacity →
      required ≤ capacity ∧ capacity ≤ maxSize ∧
      (64 ∣ maxSize → capacity ≤ Word.wordsFor capacity * 64 ∧ Word.wordsFor capacity * 64 ≤ maxSize)) ∧
    (∀ old' required' maxSize' capacity capacity', old ≤ old' → required ≤ required' → maxSize ≤ maxSize' →
      maxSize' ≤ Size.limit → grow old required maxSize = .ok capacity →
      grow old' required' maxSize' = .ok capacity' → capacity ≤ capacity') ∧
    ∀ s : BitSequence, 64 ∣ s.capacity ∧ 64 ∣ s.maxSize ∧ s.maxSize ≤ Size.limit ∧
      ∀ capacity, grow s.capacity required s.maxSize = .ok capacity →
        capacity ≤ Word.wordsFor capacity * 64 ∧ Word.wordsFor capacity * 64 ≤ s.maxSize := by
  have hrounded : ∀ {room capacity : Nat}, 64 ∣ room → capacity ≤ room →
      capacity ≤ Word.wordsFor capacity * 64 ∧ Word.wordsFor capacity * 64 ≤ room :=
    fun hwhole hle => ⟨Word.le_wordsFor _, Word.wordsFor_mul_le hwhole hle⟩
  refine ⟨grow_eq_error_iff, fun hle => grow_of_le hle hlimit, fun capacity hgrow => ?_, ?_, fun s => ?_⟩
  · obtain ⟨hlow, hhigh⟩ := grow_bounds hgrow
    exact ⟨hlow, hhigh, fun hwhole => hrounded hwhole hhigh⟩
  · exact fun _ _ _ _ _ => grow_mono
  · have hwhole : 64 ∣ s.maxSize := Nat.dvd_mul_left _ _
    exact ⟨Nat.dvd_mul_left _ _, hwhole, s.maxWords_le_limit,
      fun capacity hgrow => hrounded hwhole (grow_bounds hgrow).2⟩

/-- Twice the old capacity is no size any more, and the maximum size is the largest one that comes to whole
words: all of it is granted, and one bit more would be refused. -/
theorem grow_determined_saturated :
    let old := 2 ^ 63
    let most := 2 ^ 64 - 64
    (most ≤ Size.limit ∧ old + 1 ≤ most ∧ 64 ∣ most ∧ old - 64 ≤ old ∧ old - 63 ≤ old + 1) ∧
      Size.limit < 2 * old ∧ grow old (old + 1) most = .ok most ∧ Word.wordsFor most * 64 ≤ most ∧
      (∃ capacity, grow (old - 64) (old - 63) most = .ok capacity ∧ capacity ≤ most) ∧
      grow old (most + 1) most = .error .capacityExceeded := by
  intro old most
  have hlimit : most ≤ Size.limit := by decide
  have hle : old + 1 ≤ most := by decide
  have hwhole : 64 ∣ most := by decide
  have hold : old - 64 ≤ old := by decide
  have hrequired : old - 63 ≤ old + 1 := by decide
  obtain ⟨-, hexact, hbounds, -, -⟩ := @grow_determined old (old + 1) most hlimit
  obtain ⟨-, hexact', -, hmono, -⟩ := @grow_determined (old - 64) (old - 63) most hlimit
  obtain ⟨hrefused, -⟩ := @grow_determined old (most + 1) most hlimit
  have hgranted : grow old (old + 1) most = .ok most := hexact hle
  have hgranted' := hexact' (hrequired.trans hle)
  exact ⟨⟨hlimit, hle, hwhole, hold, hrequired⟩, by decide, hgranted, ((hbounds most hgranted).2.2 hwhole).2,
    ⟨_, hgranted', hmono old (old + 1) most _ most hold hrequired (Nat.le_refl _) hlimit hgranted' hgranted⟩,
    hrefused.mpr (Nat.lt_succ_self most)⟩

end Capacity

end Growable
