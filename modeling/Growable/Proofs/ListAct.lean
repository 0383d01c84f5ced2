import Growable.Source
import Growable.Span
import Growable.Proofs.Custody.Primitive

/-!
# Plain lists as the measure of sequences

What a sequence is for can be said without its storage: it is a list.  `ListAct` holds the operations on
plain lists, which know neither memory nor its limits; they are refused only for an index, a position or
a span that does not lie within the list.

`refining` is the claim that an operation on a sequence does to the contents what an operation on a list
does to a list.  The sequence may lack memory instead, but only where the list would not be refused.
-/

namespace Growable

variable {S β δ γ : Type}

/-- The message with which an iterator faults in the end, if it does. -/
def Feed.raised? : Feed γ → Option String
  | finish => none
  | raise message => some message
  | yield _ rest => rest.raised?

theorem checkPosition_eq_ok {position len : Nat} (h : position ≤ len) :
    checkPosition position len = .ok () := if_pos h

theorem le_of_checkPosition_eq_ok {position len : Nat} (h : checkPosition position len = .ok ()) :
    position ≤ len := by
  unfold checkPosition at h
  split at h
  · assumption
  · cases h

/-- The error names the position and the length. -/
theorem checkPosition_eq_error {position len : Nat} {e : SequenceError}
    (h : checkPosition position len = .error e) :
    ¬ position ≤ len ∧ e = .outOfBounds position len := by
  unfold checkPosition at h
  split at h
  · cases h
  · cases h
    exact ⟨by assumption, rfl⟩

theorem lt_of_checkIndex_eq_ok {index len : Nat} (h : checkIndex index len = .ok ()) :
    index < len := by
  unfold checkIndex at h
  split at h
  · assumption
  · cases h

/-- The error names the index and the length. -/
theorem checkIndex_eq_error {index len : Nat} {e : SequenceError}
    (h : checkIndex index len = .error e) : len ≤ index ∧ e = .outOfBounds index len := by
  unfold checkIndex at h
  split at h
  · cases h
  · cases h
    exact ⟨Nat.le_of_not_lt (by assumption), rfl⟩

/-- The outcome is no refusal. -/
def Outcome.Accepted (o : Outcome S β) : Prop := ∀ e s, o ≠ .refused e s

/-- A result is no refusal. -/
theorem Outcome.accepted_done (b : β) (s : S) : (Outcome.done b s).Accepted := by
  intro e t h
  cases h

/-- A fault is no refusal either. -/
theorem Outcome.accepted_faulted (f : Fault) (s : S) :
    (Outcome.faulted f s : Outcome S β).Accepted := by
  intro e t h
  cases h

/-- An operation on a plain list. -/
abbrev ListAct (γ β : Type) := Act (List γ) β

namespace ListAct

/-- Comes to the element at an index. -/
def pick (index : Nat) : ListAct γ γ := fun xs =>
  match xs[index]? with
  | some x => .done x xs
  | none => .refused (.outOfBounds index xs.length) xs

/-- Puts an element in the place of the one at an index, and comes to that one. -/
def exchange (index : Nat) (x : γ) : ListAct γ γ := do
  let old ← pick index
  Act.modify (·.set index x)
  return old

/-- Takes the element at an index away. -/
def erase (index : Nat) : ListAct γ γ := do
  let old ← pick index
  Act.modify (·.eraseIdx index)
  return old

/-- Takes the last element away, if there is one. -/
def pop : ListAct γ (Option γ) := fun xs => .done xs.getLast? xs.dropLast

/-- Takes the elements of a span away. -/
def eraseSpan (span : Span) : ListAct γ Unit := do
  let xs ← Act.get
  let (start, stop) ← Act.ofExcept (span.within xs.length)
  Act.modify fun xs => xs.take start ++ xs.drop stop

/-- Keeps at most the first `n` elements. -/
def truncate (n : Nat) : ListAct γ Unit := Act.modify (·.take n)

/-- Brings the list to a length, with copies of an element where some are missing. -/
def resize (n : Nat) (x : γ) : ListAct γ Unit :=
  Act.modify fun xs => xs.take n ++ List.replicate (n - xs.length) x

/-- Replaces all elements. -/
def assign (ys : List γ) : ListAct γ Unit := Act.modify fun _ => ys

/-- Puts elements at the end. -/
def append (ys : List γ) : ListAct γ Unit := Act.modify (· ++ ys)

/-- Puts elements at a position. -/
def insertAll (position : Nat) (ys : List γ) : ListAct γ Unit := fun xs =>
  if position ≤ xs.length then .done () (xs.take position ++ ys ++ xs.drop position)
  else .refused (.outOfBounds position xs.length) xs

/-- Comes to `whole` when an iterator ends, and leaves `part` when it faults. -/
def feedInto (feed : Feed γ) (whole part : List γ) : Outcome (List γ) Unit :=
  match feed.raised? with
  | none => .done () whole
  | some message => .faulted (.raised message) part

/-- Puts what an iterator yields at a position; when it faults, what it yielded is at the end. -/
def insertFeed (position : Nat) (feed : Feed γ) : ListAct γ Unit := fun xs =>
  if position ≤ xs.length then
    feedInto feed (xs.take position ++ feed.members ++ xs.drop position) (xs ++ feed.members)
  else .refused (.outOfBounds position xs.length) xs

/-- Puts what an iterator yields at the end. -/
def appendFeed (feed : Feed γ) : ListAct γ Unit := fun xs =>
  feedInto feed (xs ++ feed.members) (xs ++ feed.members)

/-- Calls a closure for some elements in a row, and goes on with what it returned; when it faults, the list
stays as it was. -/
def called (made : Except String (List γ)) (next : List γ → ListAct γ Unit) : ListAct γ Unit := fun xs =>
  match made with
  | .ok ys => next ys xs
  | .error message => .faulted (.raised message) xs

/-- Puts an element that a closure returns at a position. -/
def insertBy (position : Nat) (made : Except String (List γ)) : ListAct γ Unit := fun xs =>
  if position ≤ xs.length then called made (insertAll position) xs
  else .refused (.outOfBounds position xs.length) xs

/-- Brings the list to a length, with elements that a closure returns where some are missing. -/
def resizeBy (n : Nat) (made : Nat → Except String (List γ)) : ListAct γ Unit := fun xs =>
  called (made (n - xs.length)) (fun ys => Act.modify (·.take n ++ ys)) xs

/-- Puts the elements of a span of the list at a position. -/
def insertOwn (position : Nat) (span : Span) : ListAct γ Unit := fun xs =>
  match span.within xs.length with
  | .ok (start, stop) => insertAll position ((xs.drop start).take (stop - start)) xs
  | .error e => .refused e xs

/-- Replaces the elements by what an iterator yields; when it faults, the elements that were not replaced
yet are still there. -/
def assignFeed (feed : Feed γ) : ListAct γ Unit := fun xs =>
  feedInto feed feed.members (feed.members ++ xs.drop feed.members.length)

/-- Replaces the elements by what an iterator yields; when it faults, no other ones are left. -/
def refill (feed : Feed γ) : ListAct γ Unit := fun _ => feedInto feed feed.members feed.members

/-- Comes to the element at an index, which is taken for granted. -/
def demand (index : Nat) : ListAct γ γ := fun xs =>
  match xs[index]? with
  | some x => .done x xs
  | none => .faulted (.indexOutOfBounds index xs.length) xs

/-- Exchanges the element at an index, which is taken for granted. -/
def exchangeDemanded (index : Nat) (x : γ) : ListAct γ γ := do
  let old ← demand index
  Act.modify (·.set index x)
  return old

/-- Carries an element through all places, and comes to the last one. -/
def carry (x : γ) : ListAct γ γ := fun xs => .done (xs.getLastD x) ((x :: xs).take xs.length)

/-- An index in bounds finds its element. -/
theorem pick_of_some {index : Nat} {xs : List γ} {x : γ} (h : xs[index]? = some x) :
    pick index xs = .done x xs := by
  unfold pick
  rw [h]

/-- Any other is refused. -/
theorem pick_of_none {index : Nat} {xs : List γ} (h : xs[index]? = none) :
    pick index xs = .refused (.outOfBounds index xs.length) xs := by
  unfold pick
  rw [h]

/-- An index in bounds has its element exchanged, and the old one is the answer. -/
theorem exchange_of_some {index : Nat} {xs : List γ} {old : γ} (h : xs[index]? = some old) (x : γ) :
    exchange index x xs = .done old (xs.set index x) :=
  Act.bind_of_done (pick_of_some h)

/-- Any other is refused. -/
theorem exchange_of_none {index : Nat} {xs : List γ} (h : xs[index]? = none) (x : γ) :
    exchange index x xs = .refused (.outOfBounds index xs.length) xs :=
  Act.bind_of_refused (pick_of_none h)

/-- An index in bounds has its element removed, and it is the answer. -/
theorem erase_of_some {index : Nat} {xs : List γ} {old : γ} (h : xs[index]? = some old) :
    erase index xs = .done old (xs.eraseIdx index) :=
  Act.bind_of_done (pick_of_some h)

/-- Any other is refused. -/
theorem erase_of_none {index : Nat} {xs : List γ} (h : xs[index]? = none) :
    erase index xs = .refused (.outOfBounds index xs.length) xs :=
  Act.bind_of_refused (pick_of_none h)

/-- An index in bounds finds its element. -/
theorem demand_of_some {index : Nat} {xs : List γ} {x : γ} (h : xs[index]? = some x) :
    demand index xs = .done x xs := by
  unfold demand
  rw [h]

/-- Any other is a fault, not a refusal. -/
theorem demand_of_none {index : Nat} {xs : List γ} (h : xs[index]? = none) :
    demand index xs = .faulted (.indexOutOfBounds index xs.length) xs := by
  unfold demand
  rw [h]

/-- A span in bounds is cut out. -/
theorem eraseSpan_of_ok {span : Span} {xs : List γ} {start stop : Nat}
    (h : span.within xs.length = .ok (start, stop)) :
    eraseSpan span xs = .done () (xs.take start ++ xs.drop stop) := by
  have hspan : (Act.ofExcept (span.within xs.length) : ListAct γ (Nat × Nat)) xs
      = .done (start, stop) xs := by rw [h]; rfl
  exact (Act.bind_of_done (s := xs) rfl).trans (Act.bind_of_done hspan)

/-- Any other is refused with the error of the span. -/
theorem eraseSpan_of_error {span : Span} {xs : List γ} {e : SequenceError}
    (h : span.within xs.length = .error e) : eraseSpan span xs = .refused e xs := by
  have hspan : (Act.ofExcept (span.within xs.length) : ListAct γ (Nat × Nat)) xs
      = .refused e xs := by rw [h]; rfl
  exact (Act.bind_of_done (s := xs) rfl).trans (Act.bind_of_refused hspan)

/-- At a position in bounds the new elements stand between the others. -/
theorem insertAll_of_le {position : Nat} {xs : List γ} (h : position ≤ xs.length) (ys : List γ) :
    insertAll position ys xs = .done () (xs.take position ++ ys ++ xs.drop position) := if_pos h

/-- Any other position is refused. -/
theorem insertAll_of_gt {position : Nat} {xs : List γ} (h : ¬ position ≤ xs.length) (ys : List γ) :
    insertAll position ys xs = .refused (.outOfBounds position xs.length) xs := if_neg h

/-- To insert at the end is to append. -/
theorem insertAll_length (xs ys : List γ) : insertAll xs.length ys xs = append ys xs := by
  rw [insertAll_of_le (Nat.le_refl _), List.take_length, List.drop_length, List.append_nil]
  rfl

/-- What an iterator gives stands at the position, or at the end if it raised before it was through. -/
theorem insertFeed_of_le {position : Nat} {xs : List γ} (h : position ≤ xs.length)
    (feed : Feed γ) :
    insertFeed position feed xs = feedInto feed
      (xs.take position ++ feed.members ++ xs.drop position) (xs ++ feed.members) := if_pos h

/-- Any other position is refused before the iterator is asked. -/
theorem insertFeed_of_gt {position : Nat} {xs : List γ} (h : ¬ position ≤ xs.length)
    (feed : Feed γ) :
    insertFeed position feed xs = .refused (.outOfBounds position xs.length) xs := if_neg h

/-- To insert elements of the list itself is to insert a copy of the span. -/
theorem insertOwn_of_ok {position start stop : Nat} {span : Span} {xs : List γ}
    (h : span.within xs.length = .ok (start, stop)) :
    insertOwn position span xs
      = insertAll position ((xs.drop start).take (stop - start)) xs := by
  unfold insertOwn
  rw [h]

/-- A span out of bounds is refused first. -/
theorem insertOwn_of_error {position : Nat} {span : Span} {xs : List γ} {e : SequenceError}
    (h : span.within xs.length = .error e) : insertOwn position span xs = .refused e xs := by
  unfold insertOwn
  rw [h]

/-- At the end, an iterator that raises makes no difference to where its elements stand. -/
theorem insertFeed_length (xs : List γ) (feed : Feed γ) :
    insertFeed xs.length feed xs = appendFeed feed xs := by
  rw [insertFeed, if_pos (Nat.le_refl _), List.take_length, List.drop_length, List.append_nil]
  rfl

/-- A closure that returns hands its elements on. -/
theorem called_of_ok {made : Except String (List γ)} {ys xs : List γ} (h : made = .ok ys)
    {next : List γ → ListAct γ Unit} : called made next xs = next ys xs := by
  unfold called
  rw [h]

/-- A closure that raises ends the act before anything is changed. -/
theorem called_of_error {made : Except String (List γ)} {message : String} {xs : List γ}
    (h : made = .error message) {next : List γ → ListAct γ Unit} :
    called made next xs = .faulted (.raised message) xs := by
  unfold called
  rw [h]

/-- A raised message is no refusal, so only what follows can refuse. -/
theorem called_accepted {made : Except String (List γ)} {xs : List γ}
    {next : List γ → ListAct γ Unit} (h : ∀ ys, (next ys xs).Accepted) :
    (called made next xs).Accepted := by
  cases made with
  | ok ys => exact h ys
  | error message => exact Outcome.accepted_faulted _ _

/-- An iterator that comes to its end gives the whole result. -/
theorem feedInto_of_none {feed : Feed γ} (h : feed.raised? = none) (whole part : List γ) :
    feedInto feed whole part = .done () whole := by
  unfold feedInto
  rw [h]

/-- One that raises gives what it had brought by then. -/
theorem feedInto_of_some {feed : Feed γ} {message : String} (h : feed.raised? = some message)
    (whole part : List γ) : feedInto feed whole part = .faulted (.raised message) part := by
  unfold feedInto
  rw [h]

/-- Neither is a refusal. -/
theorem feedInto_accepted (feed : Feed γ) (whole part : List γ) :
    (feedInto feed whole part).Accepted := by
  intro e xs h
  unfold feedInto at h
  split at h <;> cases h

end ListAct

/-- The claim that the contents come to be what the reference says, or that there is a lack of memory
where the reference is not refused; the contents are then as `left` says. -/
def refining (contents : S → List γ) (reference : Outcome (List γ) β) (left : List γ → Prop) :
    Post S β :=
  ⟨fun b t => reference = .done b (contents t),
    fun e t => reference = .refused e (contents t) ∨
      e.IsLack ∧ reference.Accepted ∧ left (contents t),
    fun f t => reference = .faulted f (contents t)⟩

/-- What an operation comes to may be presented in another way. -/
theorem refining_map (contents : S → List γ) (act : ListAct γ β) (xs : List γ)
    (left : List γ → Prop) (g : β → δ) :
    let post := refining contents (act xs) left
    let post' := refining contents ((do return g (← act)) xs) left
    (∀ b t, post.done b t → post'.done (g b) t) ∧ (∀ e t, post.refused e t → post'.refused e t) ∧
      ∀ f t, post.faulted f t → post'.faulted f t := by
  refine ⟨fun b t h => Act.bind_of_done h, fun e t h => ?_, fun f t h => Act.bind_of_faulted h⟩
  rcases h with hrefused | ⟨hlack, haccepted, hleft⟩
  · exact .inl (Act.bind_of_refused hrefused)
  · refine .inr ⟨hlack, ?_, hleft⟩
    cases hact : act xs with
    | done b ys =>
        rw [Act.bind_of_done hact]
        exact Outcome.accepted_done _ _
    | refused e ys => exact absurd hact (haccepted e ys)
    | faulted f ys =>
        rw [Act.bind_of_faulted hact]
        exact Outcome.accepted_faulted _ _

end Growable
