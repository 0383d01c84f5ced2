import Mathlib.Data.List.Basic
import Growable.Span

/-!
# Which indexes a span contains

Read over all natural numbers, a span begins at its first index and ends before the index past its last one
(`Bound.first`, `Bound.past`), neither of which has to be a size.  It is accepted exactly if these two lie in
order within the length (`within_eq`), and it is the indexes that it contains which lie between them then
(`contains_iff`).

The elements of a list at these indexes are `Span.selected`; those at all others are `Span.spared`.  Where the
span is accepted, the selected ones are in one piece (`selected_eq`, `spared_eq`).
-/

namespace Growable

variable {γ : Type}

namespace Bound

/-- The index that is named, if one is. -/
def index : Bound → Nat
  | included index => index
  | excluded index => index
  | unbounded => 0

/-- The first index of a span with this lower end. -/
def first : Bound → Nat
  | included index => index
  | excluded index => index + 1
  | unbounded => 0

/-- The index past the last one of a span with this upper end. -/
def past (len : Nat) : Bound → Nat
  | included index => index + 1
  | excluded index => index
  | unbounded => len

/-- Whether an index is on the right side of this lower end. -/
def admitsFrom (i : Nat) : Bound → Bool
  | included index => index ≤ i
  | excluded index => index < i
  | unbounded => true

/-- Whether an index is on the right side of this upper end. -/
def admitsTo (i : Nat) : Bound → Bool
  | included index => i ≤ index
  | excluded index => i < index
  | unbounded => true

/-- A lower bound admits the indices from the first on. -/
theorem admitsFrom_iff (lower : Bound) (i : Nat) : lower.admitsFrom i = true ↔ lower.first ≤ i := by
  cases lower with
  | included index => exact decide_eq_true_iff
  | excluded index => exact decide_eq_true_iff.trans Nat.succ_le_iff.symm
  | unbounded => exact iff_of_true rfl (Nat.zero_le i)

/-- An index within the length is on the right side of an open end. -/
theorem admitsTo_iff (upper : Bound) {i len : Nat} (hi : i < len) :
    upper.admitsTo i = true ↔ i < upper.past len := by
  cases upper with
  | included index => exact decide_eq_true_iff.trans Nat.lt_succ_iff.symm
  | excluded index => exact decide_eq_true_iff
  | unbounded => exact iff_of_true rfl hi

/-- The index after the greatest size is out of bounds. -/
theorem after_eq (index len : Nat) :
    after index len = if index + 1 ≤ Size.limit then .ok (index + 1) else .error (.outOfBounds index len) := by
  unfold after Size.add?
  by_cases hfits : index + 1 ≤ Size.limit
  · rw [if_pos hfits, if_pos hfits]
  · rw [if_neg hfits, if_neg hfits]

/-- A lower bound is refused only if its first index is not a size. -/
theorem start_eq {lower : Bound} (hlower : lower.index ≤ Size.limit) (len : Nat) :
    lower.start len
      = if lower.first ≤ Size.limit then .ok lower.first else .error (.outOfBounds lower.index len) := by
  cases lower with
  | included index => exact (if_pos hlower).symm
  | excluded index => exact after_eq index len
  | unbounded => rfl

/-- An upper bound is refused only if the index past it is not a size. -/
theorem stop_eq {upper : Bound} {len : Nat} (hupper : upper.index ≤ Size.limit) (hlen : len ≤ Size.limit) :
    upper.stop len
      = if upper.past len ≤ Size.limit then .ok (upper.past len) else .error (.outOfBounds upper.index len) := by
  cases upper with
  | included index => exact after_eq index len
  | excluded index => exact (if_pos hupper).symm
  | unbounded => exact (if_pos hlen).symm

end Bound

/-! ## Elements at some indexes -/

/-- The elements of a list at the indexes for which a condition holds, in their order. -/
def elementsAt (p : Nat → Bool) (xs : List γ) : List γ :=
  (xs.zipIdx.filter fun entry => p entry.2).map Prod.fst

/-- Of elements whose indexes are all judged alike, there are all or none. -/
theorem filter_zipIdx_of_alike (p : Nat → Bool) {verdict : Bool} (xs : List γ) (k : Nat)
    (h : ∀ i, k ≤ i → i < k + xs.length → p i = verdict) :
    ((xs.zipIdx k).filter fun entry => p entry.2).map Prod.fst = if verdict then xs else [] := by
  have hentry : ∀ entry ∈ xs.zipIdx k, p entry.2 = verdict := fun entry hmem =>
    h entry.2 (List.le_snd_of_mem_zipIdx hmem) (List.snd_lt_add_of_mem_zipIdx hmem)
  cases verdict with
  | true => rw [List.filter_eq_self.mpr hentry, List.zipIdx_map_fst, if_pos rfl]
  | false =>
      rw [List.filter_eq_nil_iff.mpr fun entry hmem => by rw [hentry entry hmem]; exact Bool.false_ne_true]
      rfl

/-- The indexes of an interval are judged differently from all others. -/
theorem elementsAt_interval {p : Nat → Bool} (verdict : Bool) {xs : List γ} {start stop : Nat}
    (hstart : start ≤ stop) (hstop : stop ≤ xs.length)
    (hinside : ∀ i < xs.length, start ≤ i ∧ i < stop → p i = verdict)
    (houtside : ∀ i < xs.length, ¬ (start ≤ i ∧ i < stop) → p i = !verdict) :
    elementsAt p xs = if verdict then (xs.drop start).take (stop - start) else xs.take start ++ xs.drop stop := by
  have hfront : (xs.take start).length = start := List.length_take_of_le (Nat.le_trans hstart hstop)
  have hinner : ((xs.drop start).take (stop - start)).length = stop - start := by
    rw [List.length_take, List.length_drop]
    omega
  have hback : (xs.drop stop).length = xs.length - stop := List.length_drop
  have hparts : xs = xs.take start ++ ((xs.drop start).take (stop - start) ++ xs.drop stop) := by
    have hrest : (xs.drop start).drop (stop - start) = xs.drop stop := by
      rw [List.drop_drop, Nat.add_sub_cancel' hstart]
    rw [← hrest, List.take_append_drop, List.take_append_drop]
  have hbefore := filter_zipIdx_of_alike p (xs.take start) 0
    fun i _ hi => houtside i (by omega) (by omega)
  have hwithin := filter_zipIdx_of_alike p ((xs.drop start).take (stop - start)) start
    fun i hle hi => hinside i (by omega) (by omega)
  have hbehind := filter_zipIdx_of_alike p (xs.drop stop) stop
    fun i hle hi => houtside i (by omega) (by omega)
  have hwhole : elementsAt p xs = (if !verdict then xs.take start else []) ++
      ((if verdict then (xs.drop start).take (stop - start) else []) ++
        if !verdict then xs.drop stop else []) := by
    conv_lhs => rw [elementsAt, hparts]
    rw [List.zipIdx_append, List.zipIdx_append, hfront, hinner, Nat.zero_add, Nat.add_sub_cancel' hstart]
    simp only [List.filter_append, List.map_append, hbefore, hwithin, hbehind]
  rw [hwhole]
  cases verdict with
  | true => exact List.append_nil _
  | false => rfl

namespace Span

variable {span : Span} {len start stop : Nat}

/-- The bounds name only indexes that can be expressed. -/
structure Expressible (span : Span) : Prop where
  lower : span.lower.index ≤ Size.limit
  upper : span.upper.index ≤ Size.limit

/-- Whether an index is in the span, whatever it is a span of. -/
def contains (span : Span) (i : Nat) : Bool := span.lower.admitsFrom i && span.upper.admitsTo i

/-- The first index of the span and the one past its last one are in order, within the length. -/
def Fits (span : Span) (len : Nat) : Prop := span.lower.first ≤ span.upper.past len ∧ span.upper.past len ≤ len

instance (span : Span) (len : Nat) : Decidable (span.Fits len) := inferInstanceAs (Decidable (_ ∧ _))

/-- The index that is reported of a span that does not fit: that of a bound with no size next to it, the lower
one before the upper one, then that past the last one, and then the first one. -/
def culprit (span : Span) (len : Nat) : Nat :=
  if Size.limit < span.lower.first then span.lower.index
  else if Size.limit < span.upper.past len then span.upper.index
  else if len < span.upper.past len then span.upper.past len
  else span.lower.first

/-- Within the length, a span contains the indexes between its ends. -/
theorem contains_iff (span : Span) {i : Nat} (hi : i < len) :
    span.contains i = true ↔ span.lower.first ≤ i ∧ i < span.upper.past len := by
  rw [contains, Bool.and_eq_true, Bound.admitsFrom_iff, Bound.admitsTo_iff _ hi]

/-- The lower bound is refused first. -/
theorem within_of_start {e : SequenceError} (hstart : span.lower.start len = .error e) :
    span.within len = .error e := by
  rw [within, hstart]
  rfl

/-- The upper bound is refused when the lower one is not. -/
theorem within_of_stop {e : SequenceError} (hstart : span.lower.start len = .ok start)
    (hstop : span.upper.stop len = .error e) : span.within len = .error e := by
  rw [within, hstart, hstop]
  rfl

/-- Once both ends are known, the second one is compared with the length first. -/
theorem within_of_ends (hstart : span.lower.start len = .ok start) (hstop : span.upper.stop len = .ok stop) :
    span.within len = if start ≤ stop ∧ stop ≤ len then .ok (start, stop)
      else .error (.outOfBounds (if len < stop then stop else start) len) := by
  rw [within, hstart, hstop]
  simp only [bind, Except.bind, checkPosition]
  by_cases hlong : len < stop
  · have hunfit : ¬ (start ≤ stop ∧ stop ≤ len) := by omega
    rw [if_neg (Nat.not_le.mpr hlong), if_neg hunfit, if_pos hlong]
  rw [if_pos (Nat.not_lt.mp hlong), if_neg hlong]
  by_cases horder : stop < start
  · have hunfit : ¬ (start ≤ stop ∧ stop ≤ len) := by omega
    rw [if_neg hunfit, if_pos horder]
    rfl
  · have hfits : start ≤ stop ∧ stop ≤ len := by omega
    rw [if_pos hfits, if_neg horder]
    rfl

/-- **A span is accepted exactly if it fits**, and the interval is the one between its ends then. -/
theorem within_eq (hspan : span.Expressible) (hlen : len ≤ Size.limit) :
    span.within len = if span.Fits len then .ok (span.lower.first, span.upper.past len)
      else .error (.outOfBounds (span.culprit len) len) := by
  have hstart := Bound.start_eq hspan.lower len
  have hstop := Bound.stop_eq hspan.upper hlen
  unfold culprit
  by_cases hfirst : Size.limit < span.lower.first
  · have hunfit : ¬ span.Fits len := fun hfits => by
      obtain ⟨horder, hpast⟩ := hfits
      omega
    rw [if_neg (Nat.not_le.mpr hfirst)] at hstart
    rw [within_of_start hstart, if_neg hunfit, if_pos hfirst]
  rw [if_pos (Nat.not_lt.mp hfirst)] at hstart
  rw [if_neg hfirst]
  by_cases hpast : Size.limit < span.upper.past len
  · have hunfit : ¬ span.Fits len := fun hfits => by
      obtain ⟨_, hpast⟩ := hfits
      omega
    rw [if_neg (Nat.not_le.mpr hpast)] at hstop
    rw [within_of_stop hstart hstop, if_neg hunfit, if_pos hpast]
  rw [if_pos (Nat.not_lt.mp hpast)] at hstop
  rw [within_of_ends hstart hstop, if_neg hpast]
  rfl

/-- The elements at the indexes that the span contains. -/
def selected (span : Span) (xs : List γ) : List γ := elementsAt span.contains xs

/-- The elements at all other indexes. -/
def spared (span : Span) (xs : List γ) : List γ := elementsAt (fun i => !span.contains i) xs

/-- The indices of a span are those between its bounds. -/
theorem selected_eq (xs : List γ) (h : span.Fits xs.length) :
    span.selected xs
      = (xs.drop span.lower.first).take (span.upper.past xs.length - span.lower.first) := by
  refine elementsAt_interval true h.1 h.2 ?_ ?_
  · exact fun i hi hin => (span.contains_iff hi).mpr hin
  · exact fun i hi hout => Bool.eq_false_iff.mpr fun hin => hout ((span.contains_iff hi).mp hin)

/-- The indices not in a span are those in front of it and those behind. -/
theorem spared_eq (xs : List γ) (h : span.Fits xs.length) :
    span.spared xs = xs.take span.lower.first ++ xs.drop (span.upper.past xs.length) := by
  refine elementsAt_interval false h.1 h.2 ?_ ?_
  · exact fun i hi hin => congrArg not ((span.contains_iff hi).mpr hin)
  · exact fun i hi hout =>
      congrArg not (Bool.eq_false_iff.mpr fun hin => hout ((span.contains_iff hi).mp hin))

end Span

end Growable
