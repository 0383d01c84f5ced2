/-!
# Sizes

Lengths, capacities and indexes are natural numbers, and the storage can only express those up to
`Size.limit`.  Sums that pass the limit have no value; doubling stops at it.  A single block of memory
holds at most `Size.blockLimit` bytes.

* `add?_eq_some_iff` — a sum has a value exactly when it stays within the limit;
* `double_eq_min` — doubling is exact until the limit and stays there.
-/

namespace Growable.Size

/-- The largest length, capacity or index: what 64 bits can express. -/
def limit : Nat := 0xFFFFFFFFFFFFFFFF

/-- The largest number of bytes in one block of memory: what 63 bits can express. -/
def blockLimit : Nat := 0x7FFFFFFFFFFFFFFF

/-- The sum of two sizes, unless it passes the limit. -/
def add? (m n : Nat) : Option Nat :=
  if m + n ≤ limit then some (m + n) else none

/-- Twice a size, or the limit if that would pass it. -/
def double (n : Nat) : Nat :=
  if limit < 2 * n then limit else 2 * n

theorem add?_eq_some_iff {m n k : Nat} : add? m n = some k ↔ m + n = k ∧ k ≤ limit := by
  unfold add?
  grind

theorem add?_eq_none_iff {m n : Nat} : add? m n = none ↔ limit < m + n := by
  unfold add?
  grind

theorem double_eq_min (n : Nat) : double n = min (2 * n) limit := by
  unfold double
  grind

end Growable.Size
