import Growable.Sequence

/-!
# Order of sequences

Sequences are compared element by element, and a sequence comes before its extensions.  Elements need
not all be comparable: two sequences then are as comparable as the first pair of elements that decides.
-/

namespace Growable

/-- Compares two lists by the first place in which they differ; a list comes before its extensions. -/
def lexicographic {α : Type} (compare : α → α → Ordering) : List α → List α → Ordering
  | [], [] => .eq
  | [], _ :: _ => .lt
  | _ :: _, [] => .gt
  | x :: xs, y :: ys =>
    match compare x y with
    | .eq => lexicographic compare xs ys
    | decided => decided

/-- Compares two lists by the first place in which they are not equal, if they are comparable there. -/
def partialLexicographic {α : Type} (compare : α → α → Option Ordering) :
    List α → List α → Option Ordering
  | [], [] => some .eq
  | [], _ :: _ => some .lt
  | _ :: _, [] => some .gt
  | x :: xs, y :: ys =>
    match compare x y with
    | some .eq => partialLexicographic compare xs ys
    | decided => decided

namespace Sequence

variable {α : Type}

/-- Whether two sequences hold equal elements, whatever their storage. -/
def beq [BEq α] (s t : Sequence α) : Bool := s.items == t.items

/-- The order of two sequences. -/
def cmp [Ord α] (s t : Sequence α) : Ordering := lexicographic compare s.items t.items

/-- The order of two sequences whose elements need not be comparable. -/
def partialCmp (compare : α → α → Option Ordering) (s t : Sequence α) : Option Ordering :=
  partialLexicographic compare s.items t.items

/-- What a sequence feeds to a hash: its length, then its elements. -/
def hashData (s : Sequence α) : Nat × List α := (s.len, s.items)

end Sequence

end Growable
