import Growable.Proofs.Program.Registers

/-!
# What comes and goes with containers

Whatever kind of container it is: one that is made is in custody beside everything else, one that is
disposed of leaves nothing, and where no container comes of it, everything is as it was.

A fault here comes from the code of the elements (`Element.CodeRaises`); a copy that is taken for granted
can fault for a lack of memory, too.
-/

namespace Growable

variable {σ α : Type} {E : Element σ α} {w : World σ α} {m : Multiset (Asset α)}

/-- The fault is raised by some code of the elements. -/
inductive Element.CodeRaises (E : Element σ α) (f : Fault) : Prop
  | clone {x : α} (h : CanRaise (E.onClone x) f)
  | overwrite {old x : α} (h : CanRaise (E.onOverwrite old x) f)
  | default (h : CanRaise E.onDefault f)
  | drop {x : α} (h : CanRaise (E.onDrop x) f)

/-- A fault of a clone is one of the code of the elements. -/
theorem Element.CloneFaults.codeRaises {ys : List α} {k : Nat} {f : Fault}
    (h : E.CloneFaults ys k f) : E.CodeRaises f := by
  obtain ⟨_, _, h⟩ := h
  exact .clone h

namespace Container

/-- Nothing of a container is left once it is disposed of. -/
theorem dispose_meets {c : Container α} (hc : c.Valid E) (h : w.Owns (c.assets E + m)) :
    (c.dispose E w).Meets (.always fun w' => w'.Owns m) := by
  cases c with
  | elements s =>
      exact (Sequence.dispose_meets hc true h).imp (fun _ _ => id) (fun _ _ => False.elim)
        (fun _ _ hf => hf.2.1)
  | bits s =>
      exact (BitSequence.dispose_meets hc h).of_returns fun _ _ => id

/-- What came of it is valid and in custody, beside the assets `m`, and satisfies `Q`. -/
structure Kept (E : Element σ α) (m : Multiset (Asset α)) (Q : Option (Container α) → Prop)
    (slot : Option (Container α)) (w : World σ α) : Prop where
  valid : ∀ c, slot = some c → c.Valid E
  owns : w.Owns (Workspace.slotAssets E slot + m)
  spec : Q slot

/-- The claim that a container comes of it which satisfies `Q`, or nothing, as `Q` says too. -/
def made (E : Element σ α) (m : Multiset (Asset α)) (Q : Option (Container α) → Prop)
    (G : Fault → Prop) : Post (World σ α) (Option (Container α)) :=
  ⟨Kept E m Q, fun e w' => e.IsLack ∧ w'.Owns m, fun f w' => w'.Owns m ∧ G f⟩

/-- A sequence in custody may be put back. -/
theorem kept_elements {s : Sequence α} {Q : Option (Container α) → Prop}
    (hs : Sequence.Sound E m (s, w)) (hQ : Q (some (.elements s))) :
    Kept E m Q (some (.elements s)) w := by
  refine ⟨fun c hc => ?_, hs.owns, hQ⟩
  cases hc
  exact hs.valid

theorem kept_bits {s : BitSequence} {Q : Option (Container α) → Prop}
    (hs : BitSequence.Sound m (s, w)) (hQ : Q (some (.bits s))) :
    Kept E m Q (some (.bits s)) w := by
  refine ⟨fun c hc => ?_, hs.owns, hQ⟩
  cases hc
  exact hs.valid

/-- A register may be left empty if nothing is owned for it. -/
theorem kept_none {Q : Option (Container α) → Prop} (h : w.Owns m) (hQ : Q none) :
    Kept E m Q none w := by
  refine ⟨fun c hc => ?_, h.of_eq (zero_add m).symm, hQ⟩
  cases hc

/-- The second container holds clones of what is in the first one. -/
def IsCopy (E : Element σ α) : Container α → Option (Container α) → Prop
  | elements s, some (elements t) =>
    t.items.length = s.len ∧ Staging.Made (E.ClonedFrom s.items) 0 t.items
  | bits s, some (bits t) => t.bits = s.bits
  | _, _ => False

/-- The code of the elements raises the fault, where there are elements. -/
def CodeFaults (E : Element σ α) (c : Container α) (f : Fault) : Prop :=
  match c with
  | elements _ => E.toShape.Fits → E.CodeRaises f
  | bits _ => False

/-- A copy owns its block and its elements, and the original is untouched whether it succeeds or
not. -/
theorem copy_meets {c : Container α} (hc : c.Valid E) (h : w.Owns m) :
    ((do return some (← c.copy E) : Act (World σ α) (Option (Container α))) w).Meets
      (made E m (c.IsCopy E) (c.CodeFaults E)) := by
  cases c with
  | elements s =>
      simp only [copy, Act.bind_meets, Act.pure_meets]
      apply (Sequence.copy_meets h).imp
      · exact fun t w' ht => kept_elements ht.1 ht.2.2.2
      · exact fun e w' he => he
      · intro f w' hf
        refine ⟨hf.2.1, fun hfits => ?_⟩
        obtain ⟨_, _, _, hfaults⟩ := hf.2.2 hfits
        exact hfaults.codeRaises
  | bits s =>
      simp only [copy, Act.bind_meets, Act.pure_meets]
      apply (BitSequence.copy_meets hc h).imp
      · exact fun t w' ht => kept_bits ht.1 ht.2.1
      · exact fun e w' he => he
      · exact fun f w' hf => hf

/-- A copy that is taken for granted makes a fault of a refusal. -/
theorem copyDemanded_meets {c : Container α} (hc : c.Valid E) (h : w.Owns m) :
    ((do return some (← c.copyDemanded E) : Act (World σ α) (Option (Container α))) w).Meets
      (made E m (c.IsCopy E) fun f => c.CodeFaults E f ∨ ∃ e, e.IsLack ∧ f = .copyRefused e) := by
  cases c with
  | elements s =>
      simp only [copyDemanded, Act.bind_meets, Act.pure_meets]
      apply (Sequence.copyDemanded_meets h).imp
      · exact fun t w' ht => kept_elements ht.1 ht.2.2.2
      · exact fun e w' he => he
      · intro f w' hf
        refine ⟨hf.2.1, ?_⟩
        by_cases hfits : E.toShape.Fits
        · rcases hf.2.2 hfits with hclone | hlack
          · obtain ⟨_, _, _, hfaults⟩ := hclone
            exact .inl fun _ => hfaults.codeRaises
          · exact .inr hlack
        · exact .inl fun hfits' => absurd hfits' hfits
  | bits s =>
      simp only [copyDemanded, Act.bind_meets, Act.pure_meets]
      apply (BitSequence.copyDemanded_meets hc h).imp
      · exact fun t w' ht => kept_bits ht.1 ht.2.1
      · exact fun e w' he => he
      · exact fun f w' hf => ⟨hf.1, .inr hf.2⟩

end Container

/-! ## Recipes -/

namespace Recipe

/-- The members that a recipe asks for, or nothing if one of its items is not valid, or what its items
raise. -/
def members {γ : Type} : Recipe γ → Except String (Option (List γ))
  | empty => .ok (some [])
  | withCapacity _ => .ok (some [])
  | replicate count x => .ok (some (List.replicate count x))
  | ofList xs => .ok (some xs)
  | read _ items => items.readItems

/-- The items of the recipe raise the fault. -/
def Raises {γ : Type} (recipe : Recipe γ) (f : Fault) : Prop :=
  ∃ message, recipe.members = .error message ∧ f = .raised message

/-- The sequence holds the elements that were read, or clones of those that were given; without an item
that is valid throughout, there is none. -/
def IsMade (E : Element σ α) (recipe : Recipe α) (slot : Option (Container α)) : Prop :=
  match recipe.members, slot with
  | .ok (some ys), some (.elements s) =>
    s.items = ys ∨ s.items.length = ys.length ∧ Staging.Made (E.ClonedFrom ys) 0 s.items
  | .ok none, none => True
  | _, _ => False

/-- The bit sequence holds the bits; without an item that is valid throughout, there is none. -/
def IsMadeOfBits (recipe : Recipe Bool) (slot : Option (Container α)) : Prop :=
  match recipe.members, slot with
  | .ok (some ys), some (.bits s) => s.bits = ys
  | .ok none, none => True
  | _, _ => False

/-- What a recipe makes has its members, and a recipe that does not succeed leaves nothing behind. -/
theorem create_meets (recipe : Recipe α) (handle : Handle) (h : w.Owns m) :
    ((do return (← recipe.create E handle).map .elements :
      Act (World σ α) (Option (Container α))) w).Meets
        (Container.made E m (recipe.IsMade E) fun f => E.toShape.Fits → E.CodeRaises f ∨ recipe.Raises f) := by
  cases recipe with
  | empty => exact Container.kept_elements (Sequence.sound_empty handle h) (.inl rfl)
  | withCapacity capacity =>
      simp only [create, Act.bind_meets, Act.pure_meets]
      apply (Sequence.withCapacity_meets capacity handle h).imp
      · exact fun s w' hs => Container.kept_elements hs.1 (.inl hs.2.1)
      · exact fun e w' he => he
      · exact fun f w' hf => ⟨hf.2.1, fun hfits => (hf.2.2 hfits).elim⟩
  | replicate count x =>
      simp only [create, Act.bind_meets, Act.pure_meets]
      apply (Sequence.replicate_meets count x handle h).imp
      · intro s w' hs
        obtain ⟨hs, _, _, hlen, hmade⟩ := hs
        exact Container.kept_elements hs (.inr ⟨by rw [hlen, List.length_replicate], hmade⟩)
      · exact fun e w' he => he
      · intro f w' hf
        refine ⟨hf.2.1, fun hfits => ?_⟩
        obtain ⟨_, _, _, hfaults⟩ := hf.2.2 hfits
        exact .inl hfaults.codeRaises
  | ofList xs =>
      simp only [create, Act.bind_meets, Act.pure_meets]
      apply (Sequence.ofList_meets xs handle h).imp
      · exact fun s w' hs => Container.kept_elements hs.1 (.inr hs.2.2)
      · exact fun e w' he => he
      · intro f w' hf
        refine ⟨hf.2.1, fun hfits => ?_⟩
        obtain ⟨_, hfaults⟩ := hf.2.2 hfits
        exact .inl hfaults.codeRaises
  | read hint items =>
      simp only [create, Act.bind_meets, Act.pure_meets]
      apply (Sequence.read_meets hint items handle h).imp
      · rintro slot w' ⟨hread, hslot⟩
        cases slot with
        | none =>
            apply Container.kept_none hslot
            simp only [IsMade, members, hread, Option.map_none]
        | some s =>
            apply Container.kept_elements hslot.1
            simp only [IsMade, members, hread, Option.map_some]
            exact .inl trivial
      · exact fun e w' he => he
      · intro f w' hf
        refine ⟨hf.2.1, fun hfits => ?_⟩
        rcases hf.2.2 hfits with hread | ⟨_, hraise⟩
        · exact .inr hread
        · exact .inl (.drop hraise)

/-- The same holds for a recipe of bits. -/
theorem createBits_meets (recipe : Recipe Bool) (handle : Handle) (h : w.Owns m) :
    ((do return (← recipe.createBits handle).map .bits :
      Act (World σ α) (Option (Container α))) w).Meets
        (Container.made E m recipe.IsMadeOfBits recipe.Raises) := by
  -- A bit sequence that is made for sure holds the members of the recipe.
  have hmade : ∀ {ys : List Bool} {make : Act (World σ α) BitSequence},
      recipe.members = .ok (some ys) →
      (make w).Meets (BitSequence.created m (fun s => s.bits = ys) fun _ => False) →
      (make w).Meets ⟨fun s => Container.Kept E m recipe.IsMadeOfBits (some (.bits s)),
        fun e w' => e.IsLack ∧ w'.Owns m, fun f w' => w'.Owns m ∧ recipe.Raises f⟩ := by
    intro ys make hys hcreated
    apply hcreated.imp
    · intro s w' hs
      have hspec : recipe.IsMadeOfBits (some (.bits s) : Option (Container α)) := by
        simp only [IsMadeOfBits, hys]
        exact hs.2
      exact Container.kept_bits hs.1 hspec
    · exact fun e w' he => he
    · exact fun f w' hf => hf.2.elim
  cases recipe with
  | empty => exact Container.kept_bits (BitSequence.sound_empty handle h) rfl
  | withCapacity capacity =>
      simp only [createBits, Act.bind_meets, Act.pure_meets]
      apply hmade rfl
      apply (BitSequence.withCapacity_meets capacity handle h).imp
      · exact fun s w' hs => ⟨hs.1, hs.2.1⟩
      · exact fun _ _ => id
      · exact fun _ _ => id
  | replicate count value =>
      simp only [createBits, Act.bind_meets, Act.pure_meets]
      exact hmade rfl (BitSequence.replicate_meets count value handle h)
  | ofList values =>
      simp only [createBits, Act.bind_meets, Act.pure_meets]
      exact hmade rfl (BitSequence.ofList_meets values handle h)
  | read hint items =>
      simp only [createBits, Act.bind_meets, Act.pure_meets]
      apply (BitSequence.read_meets hint items handle h).imp
      · rintro slot w' ⟨hread, hslot⟩
        cases slot with
        | none =>
            apply Container.kept_none hslot
            simp only [IsMadeOfBits, members, hread, Option.map_none]
        | some s =>
            apply Container.kept_bits hslot
            simp only [IsMadeOfBits, members, hread, Option.map_some]
      · exact fun e w' he => he
      · exact fun f w' hf => hf

end Recipe

/-! ## Containers that are used up -/

/-- Only code of the elements keeps a container from being used up without a fault. -/
theorem Workspace.discardOne_meets {c : Container α} (hc : c.Valid E)
    (h : w.Owns (c.assets E + m)) :
    (discardOne E c w).Meets ⟨fun answer w' => answer = .nothing ∧ w'.Owns m, fun _ _ => False,
      fun f w' => w'.Owns m ∧ c.CodeFaults E f⟩ := by
  cases c with
  | elements s =>
      simp only [discardOne, Act.bind_meets, Act.pure_meets]
      apply (Sequence.dispose_meets hc false h).imp
      · exact fun _ w' h' => ⟨trivial, h'⟩
      · exact fun _ _ => False.elim
      · intro f w' hf
        refine ⟨hf.2.1, fun hfits => ?_⟩
        obtain ⟨⟨_, _, hraise⟩, _⟩ := hf.2.2 hfits
        exact .drop hraise
  | bits s =>
      simp only [discardOne, Act.bind_meets, Act.pure_meets]
      exact (BitSequence.dispose_meets hc h).of_returns fun _ w' h' => ⟨trivial, h'⟩

/-- Giving a container up returns its block and its elements, whatever the drops do. -/
theorem Workspace.discardOne_owns {c : Container α} (hc : c.Valid E) (h : w.Owns (c.assets E + m)) :
    (discardOne E c w).Meets (.always fun w' => w'.Owns m) :=
  (discardOne_meets hc h).imp (fun _ _ h' => h'.2) (fun _ _ => False.elim) (fun _ _ hf => hf.1)

/-- A move of a drain keeps it in custody. -/
theorem DrainMove.perform_meets {d : Drain α} (move : DrainMove) (hd : Drain.Sound E m (d, w)) :
    (move.perform (d, w)).Meets (.returns fun _ u => Drain.Sound E m u) := by
  cases move with
  | next =>
      simp only [perform, Act.bind_meets, Act.pure_meets]
      exact (Drain.next_meets hd).of_returns fun _ u hu => hu.1
  | nextBack =>
      simp only [perform, Act.bind_meets, Act.pure_meets]
      exact (Drain.nextBack_meets hd).of_returns fun _ u hu => hu.1
  | look => exact hd

theorem DrainMove.performAll_meets {d : Drain α} (moves : List DrainMove)
    (hd : Drain.Sound E m (d, w)) :
    (moves.mapM DrainMove.perform (d, w)).Meets (.returns fun _ u => Drain.Sound E m u) := by
  induction moves generalizing d w with
  | nil => exact hd
  | cons move rest ih =>
      simp only [List.mapM_cons, Act.bind_meets, Act.pure_meets]
      apply (move.perform_meets hd).of_returns
      exact fun _ u hu => (ih hu).of_returns fun _ _ => id

/-- After a drain, the answer is a list of moves and nothing of the sequence is left. -/
theorem Workspace.drainAll_meets {s : Sequence α} (moves : List DrainMove) (hs : s.Valid E)
    (h : w.Owns (s.assets E + m)) :
    (drainAll E moves s w).Meets ⟨fun answer w' => (∃ moves, answer = .drained moves) ∧ w'.Owns m,
      fun _ _ => False, fun f w' => w'.Owns m ∧ (E.toShape.Fits → E.CodeRaises f)⟩ := by
  simp only [drainAll, Act.bind_meets, Act.owning_meets, Act.pure_meets]
  apply (DrainMove.performAll_meets moves (Drain.sound_of hs h)).of_returns
  intro answers u hu
  apply (Drain.dispose_meets hu false).imp
  · exact fun _ w' h' => ⟨⟨answers, rfl⟩, h'⟩
  · exact fun _ _ => False.elim
  · intro f w' hf
    refine ⟨hf.2.1, fun hfits => ?_⟩
    obtain ⟨⟨_, _, hraise⟩, _⟩ := hf.2.2 hfits
    exact .drop hraise

/-- After a drain nothing of the sequence is left, faults included. -/
theorem Workspace.drainAll_owns {s : Sequence α} (moves : List DrainMove) (hs : s.Valid E)
    (h : w.Owns (s.assets E + m)) : (drainAll E moves s w).Meets (.always fun w' => w'.Owns m) :=
  (drainAll_meets moves hs h).imp (fun _ _ h' => h'.2) (fun _ _ => False.elim) (fun _ _ hf => hf.1)

end Growable
