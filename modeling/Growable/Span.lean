import Growable.Size
import Growable.SequenceError

/-!
# Indexes and spans within a length

Three tests decide whether an argument lies within a sequence of length `len`: an index of an element, a
position between elements, and a span of elements given by two bounds.  A span is read as the half-open
interval `[start, stop)`.  When several things are wrong with a span, the bound that cannot be
represented is reported first (the lower one before the upper one), then a `stop` past the end, then a
`start` past `stop`.

* `Span.bounds_of_within` — the interval of a span that is accepted lies within the length.
-/

namespace Growable

/-- One end of a span. -/
inductive Bound where
  | included (index : Nat)
  | excluded (index : Nat)
  | unbounded
  deriving DecidableEq

/-- A run of indexes, given by its two ends. -/
structure Span where
  lower : Bound
  upper : Bound
  deriving DecidableEq

/-- An element exists at `index` only below the length. -/
def checkIndex (index len : Nat) : Except SequenceError Unit :=
  if index < len then .ok () else .error (.outOfBounds index len)

/-- Elements can be put at a `position` up to the length. -/
def checkPosition (position len : Nat) : Except SequenceError Unit :=
  if position ≤ len then .ok () else .error (.outOfBounds position len)

namespace Bound

/-- The index after `index`, which must be representable. -/
def after (index len : Nat) : Except SequenceError Nat :=
  match Size.add? index 1 with
  | some next => .ok next
  | none => .error (.outOfBounds index len)

/-- The first index of a span with this lower end. -/
def start (lower : Bound) (len : Nat) : Except SequenceError Nat :=
  match lower with
  | included index => .ok index
  | excluded index => after index len
  | unbounded => .ok 0

/-- The index after the last one of a span with this upper end. -/
def stop (upper : Bound) (len : Nat) : Except SequenceError Nat :=
  match upper with
  | included index => after index len
  | excluded index => .ok index
  | unbounded => .ok len

end Bound

/-- The half-open interval that a span denotes within a length, as its `start` and its `stop`. -/
def Span.within (span : Span) (len : Nat) : Except SequenceError (Nat × Nat) := do
  let start ← span.lower.start len
  let stop ← span.upper.stop len
  checkPosition stop len
  if stop < start then
    throw (.outOfBounds start len)
  return (start, stop)

theorem Span.bounds_of_within {span : Span} {len start stop : Nat}
    (h : span.within len = .ok (start, stop)) : start ≤ stop ∧ stop ≤ len := by
  unfold within at h
  cases hstart : span.lower.start len with
  | error e => simp [hstart, bind, Except.bind] at h
  | ok first =>
      cases hstop : span.upper.stop len with
      | error e => simp [hstart, hstop, bind, Except.bind] at h
      | ok last =>
          simp only [hstart, hstop, bind, Except.bind, checkPosition] at h
          by_cases hstop : last ≤ len
          · by_cases hstart : last < first
            · simp [hstop, hstart, throw, throwThe, MonadExceptOf.throw] at h
            · simp only [hstop, hstart, if_true, if_false, pure, Except.pure] at h
              cases h
              omega
          · simp [hstop] at h

end Growable
