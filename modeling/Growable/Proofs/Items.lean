import Growable.Proofs.Invariant
import Growable.Source

/-!
# Items that are read

A container is read by pushing items one by one, up to the first one that is not valid
(`Feed.pushValid`).  What is pushed in the end is what reading the items comes to without any container
(`Feed.readItems`), for every container in which an item that is pushed comes behind the others
(`Feed.pushValid_meets`).
-/

namespace Growable

open Act

variable {S γ : Type}

namespace Feed

/-- The items come to an end by a fault, before one of them is not valid. -/
def ReadFaults (items : Feed (Option γ)) (f : Fault) : Prop :=
  ∃ message, items.readItems = .error message ∧ f = .raised message

/-- Members that are all valid are read as they are. -/
theorem readItems_ofList (xs : List γ) :
    (ofList (xs.map some) finish).readItems = .ok (some xs) := by
  induction xs with
  | nil => rfl
  | cons x rest ih =>
      change (ofList (rest.map some) finish).readItems.map _ = _
      rw [ih]
      rfl

variable {push : γ → Act S Unit} {I : S → Prop}

/-- What each push keeps, pushing item by item keeps. -/
theorem keeps_pushValid (hpush : ∀ x, Keeps I (push x)) (items : Feed (Option γ)) :
    Keeps I (items.pushValid push) := by
  induction items with
  | finish => exact keeps_pure _
  | raise message => exact keeps_fault _
  | yield item rest ih =>
      cases item with
      | none => exact keeps_pure _
      | some x => exact (hpush x).bind fun _ => ih

/-- Where each item that is pushed comes behind the others, those that are read in the end come behind
them.  A push that fails is the end, too. -/
theorem pushValid_meets (contents : S → List γ) {R : SequenceError → S → Prop} {G : Fault → S → Prop}
    (hpush : ∀ x s, I s → (push x s).Meets ⟨fun _ t => I t ∧ contents t = contents s ++ [x], R, G⟩)
    (items : Feed (Option γ)) {s : S} (hs : I s) : (items.pushValid push s).Meets
      ⟨fun valid t => I t ∧ ∃ xs, contents t = contents s ++ xs ∧
          items.readItems = .ok (if valid then some xs else none),
        R, fun f t => I t ∧ items.ReadFaults f ∨ G f t⟩ := by
  induction items generalizing s with
  | finish => exact ⟨hs, [], (List.append_nil _).symm, rfl⟩
  | raise message => exact .inl ⟨hs, message, rfl, rfl⟩
  | yield item rest ih =>
      cases item with
      | none => exact ⟨hs, [], (List.append_nil _).symm, rfl⟩
      | some x =>
          rw [pushValid, bind_meets]
          refine (hpush x s hs).imp ?_ (fun _ _ => id) fun _ _ => .inr
          rintro _ t ⟨ht, hx⟩
          refine (ih ht).imp ?_ (fun _ _ => id) ?_
          · rintro valid u ⟨hu, xs, hxs, hread⟩
            refine ⟨hu, x :: xs, ?_, ?_⟩
            · rw [hxs, hx, List.append_assoc, List.singleton_append]
            · rw [readItems, hread]
              cases valid <;> rfl
          · rintro f u (⟨hu, message, hread, hf⟩ | hf)
            · refine .inl ⟨hu, message, ?_, hf⟩
              rw [readItems, hread]
              rfl
            · exact .inr hf

end Feed

end Growable
