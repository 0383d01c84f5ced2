import Growable.Size
import Growable.SequenceError

/-!
# The growth policy

A sequence that has to grow doubles its capacity, so that appending is cheap on average.  It takes at
least `Capacity.least` slots, never more than the maximum size, and never less than what is required.

* `grow_bounds` — a capacity that is granted lies between the requirement and the maximum size.
-/

namespace Growable.Capacity

/-- The smallest capacity of a sequence that had to grow. -/
def least : Nat := 4

/-- A requirement beyond the maximum size is refused. -/
def check (required maxSize : Nat) : Except SequenceError Unit :=
  if maxSize < required then .error .capacityExceeded else .ok ()

/-- The capacity after `old` for a sequence that requires `required` slots. -/
def grow (old required maxSize : Nat) : Except SequenceError Nat := do
  check required maxSize
  let doubled := max (Size.double old) least
  let clamped := min doubled maxSize
  return max required clamped

theorem check_eq_ok_iff {required maxSize : Nat} :
    check required maxSize = .ok () ↔ required ≤ maxSize := by
  unfold check
  grind

theorem eq_of_check_eq_error {required maxSize : Nat} {e : SequenceError}
    (h : check required maxSize = .error e) : e = .capacityExceeded := by
  unfold check at h
  grind

theorem grow_bounds {old required maxSize capacity : Nat}
    (h : grow old required maxSize = .ok capacity) : required ≤ capacity ∧ capacity ≤ maxSize := by
  unfold grow check at h
  split at h
  · cases h
  · cases h
    omega

theorem eq_of_grow_eq_error {old required maxSize : Nat} {e : SequenceError}
    (h : grow old required maxSize = .error e) : e = .capacityExceeded := by
  unfold grow check at h
  split at h
  · cases h
    rfl
  · cases h

end Growable.Capacity
