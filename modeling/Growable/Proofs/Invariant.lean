import Growable.Proofs.Post

/-!
# Invariants of acts

An act keeps an invariant when every state that satisfies it leads to one that satisfies it, however the
act ends.  An operation of which nothing else is claimed is followed along the way in which it is put
together: there is one law for each way (`Keeps.bind`, `Keeps.ensuring`, ...), and none of them speaks of
the three endings.

A value that an act comes to may carry a fact that what follows relies on; `keeps_ofExcept_bind` and
`keeps_held_bind` pass such facts on, and `Act.Yields` claims one of the value that the whole comes to.
-/

namespace Growable.Act

variable {S T β δ : Type}

/-- However the act ends, the invariant holds afterwards if it held before. -/
def Keeps (I : S → Prop) (act : Act S β) : Prop := ∀ s, I s → (act s).Meets (.always I)

variable {I : S → Prop}

/-- Returning a value keeps every property. -/
theorem keeps_pure (b : β) : Keeps I (pure b : Act S β) := fun _ h => h

/-- What does not depend on the state stays true. -/
theorem keeps_const (p : Prop) (act : Act S β) : Keeps (fun _ => p) act :=
  fun _ h => Outcome.meets_always.mpr h

/-- Two properties may be kept together. -/
theorem Keeps.and {J : S → Prop} {act : Act S β} (hI : Keeps I act) (hJ : Keeps J act) :
    Keeps (fun s => I s ∧ J s) act :=
  fun s h => (hI s h.1).and (hJ s h.2)

theorem keeps_fault (f : Fault) : Keeps I (fault f : Act S β) := fun _ h => h

theorem keeps_ofOption (check : Check) (value : Option β) : Keeps I (ofOption check value) := by
  intro s h
  cases value <;> exact h

/-- Checking keeps every property, as a failed check is a fault in the same state. -/
theorem keeps_require (holds : Prop) [Decidable holds] (check : Check) :
    Keeps I (require holds check) := by
  intro s h
  exact require_meets.mpr ⟨fun _ => h, fun _ => h⟩

/-- Acts that keep a property compose. -/
theorem Keeps.bind {act : Act S β} {next : β → Act S δ} (hact : Keeps I act)
    (hnext : ∀ b, Keeps I (next b)) : Keeps I (act >>= next) := by
  intro s h
  exact bind_meets.mpr ((hact s h).imp (fun b t ht => hnext b t ht) (fun _ _ => id) (fun _ _ => id))

/-- An invariant may be given up for a weaker one on the way. -/
theorem Keeps.bind_always {act : Act S β} {next : β → Act S δ} {J : S → Prop} {s : S}
    (hact : Keeps I act) (hs : I s) (hweaken : ∀ t, I t → J t)
    (hnext : ∀ b t, I t → (next b t).Meets (.always J)) : ((act >>= next) s).Meets (.always J) :=
  bind_meets.mpr ((hact s hs).imp (fun b t ht => hnext b t ht) (fun _ t ht => hweaken t ht)
    (fun _ t ht => hweaken t ht))

/-- What is done with the value of a computation may rely on it. -/
theorem keeps_ofExcept_bind {result : Except SequenceError β} {next : β → Act S δ}
    (h : ∀ b, result = .ok b → Keeps I (next b)) : Keeps I (ofExcept result >>= next) := by
  intro s hs
  rw [bind_meets, ofExcept_meets]
  exact ⟨fun b hb => h b hb s hs, fun _ _ => hs⟩

/-- Either branch keeps a property under its condition. -/
theorem Keeps.ite {c : Prop} [Decidable c] {act act' : Act S β} (hpos : c → Keeps I act)
    (hneg : ¬ c → Keeps I act') : Keeps I (if c then act else act') := by
  by_cases h : c
  · rw [if_pos h]
    exact hpos h
  · rw [if_neg h]
    exact hneg h

/-- A property kept by the act and by its clean-up is kept by both. -/
theorem Keeps.onFault {act : Act S β} {cleanup : Act S Unit} (hact : Keeps I act)
    (hcleanup : Keeps I cleanup) : Keeps I (onFault act cleanup) := by
  intro s h
  exact onFault_meets.mpr
    ((hact s h).imp (fun _ _ => id) (fun _ _ => id) (fun _ t ht => hcleanup t ht))

/-- The same holds for the clean-up after an error. -/
theorem Keeps.onRefusal {act : Act S β} {cleanup : Act S Unit} (hact : Keeps I act)
    (hcleanup : Keeps I cleanup) : Keeps I (onRefusal act cleanup) := by
  intro s h
  exact onRefusal_meets.mpr
    ((hact s h).imp (fun _ _ => id) (fun _ t ht => hcleanup t ht) (fun _ _ => id))

/-- The same holds for what is done in every case. -/
theorem Keeps.ensuring {act : Act S β} {last : Bool → Act S Unit} (hact : Keeps I act)
    (hlast : ∀ unwinding, Keeps I (last unwinding)) : Keeps I (ensuring act last) := by
  intro s h
  exact ensuring_meets.mpr ((hact s h).imp (fun _ t ht => hlast false t ht)
    (fun _ t ht => hlast false t ht) (fun _ t ht => hlast true t ht))

/-! ## What the value is -/

/-- The act keeps the invariant, and a value that it comes to satisfies `P`. -/
def Yields (I : S → Prop) (P : β → Prop) (act : Act S β) : Prop :=
  ∀ s, I s → (act s).Meets ⟨fun b t => P b ∧ I t, fun _ => I, fun _ => I⟩

variable {P : β → Prop} {P' : δ → Prop}

theorem yields_pure {b : β} (hb : P b) : Yields I P (pure b : Act S β) := fun _ h => ⟨hb, h⟩

/-- Of the value, less may be claimed. -/
theorem Yields.imp {act : Act S β} {P'' : β → Prop} (hact : Yields I P act)
    (h : ∀ b, P b → P'' b) : Yields I P'' act :=
  fun s hs => (hact s hs).imp (fun b _ ht => ⟨h b ht.1, ht.2⟩) (fun _ _ => id) (fun _ _ => id)

/-- Each act finds what the one before it has yielded. -/
theorem Yields.bind {act : Act S β} {next : β → Act S δ} (hact : Yields I P act)
    (hnext : ∀ b, P b → Yields I P' (next b)) : Yields I P' (act >>= next) := by
  intro s h
  exact bind_meets.mpr
    ((hact s h).imp (fun b t ht => hnext b ht.1 t ht.2) (fun _ _ => id) (fun _ _ => id))

/-- The second act may do without a result of interest. -/
theorem Yields.bind_keeps {act : Act S β} {next : β → Act S δ} (hact : Yields I P act)
    (hnext : ∀ b, P b → Keeps I (next b)) : Keeps I (act >>= next) := by
  intro s h
  exact bind_meets.mpr
    ((hact s h).imp (fun b t ht => hnext b ht.1 t ht.2) (fun _ _ => id) (fun _ _ => id))

/-- The first act may do without a result of interest. -/
theorem Keeps.bind_yields {act : Act S β} {next : β → Act S δ} (hact : Keeps I act)
    (hnext : ∀ b, Yields I P' (next b)) : Yields I P' (act >>= next) := by
  intro s h
  exact bind_meets.mpr ((hact s h).imp (fun b t ht => hnext b t ht) (fun _ _ => id) (fun _ _ => id))

/-- What follows a check may rely on it. -/
theorem yields_require_bind {holds : Prop} [Decidable holds] {check : Check} {next : Unit → Act S δ}
    (h : holds → Yields I P' (next ())) : Yields I P' (require holds check >>= next) := by
  intro s hs
  rw [bind_meets, require_meets]
  exact ⟨fun hholds => h hholds s hs, fun _ => hs⟩

/-- An error has no value. -/
theorem yields_refuse (e : SequenceError) : Yields I P (refuse e : Act S β) := fun _ h => h

/-- A clean-up keeps the property; there is no value after it. -/
theorem Yields.onFault {act : Act S β} {cleanup : Act S Unit} (hact : Yields I P act)
    (hcleanup : Keeps I cleanup) : Yields I P (onFault act cleanup) := by
  intro s h
  exact onFault_meets.mpr
    ((hact s h).imp (fun _ _ => id) (fun _ _ => id) (fun _ t ht => hcleanup t ht))

/-- A value that comes out is the one that was given. -/
theorem yields_ofExcept (result : Except SequenceError β) :
    Yields I (fun b => result = .ok b) (ofExcept result) := by
  intro s h
  exact ofExcept_meets.mpr ⟨fun _ hb => ⟨hb, h⟩, fun _ _ => h⟩

/-! ## Invariants of a part and the rest -/

variable {J : S × T → Prop}

/-- The first part of a state may be looked at where the invariant holds. -/
theorem keeps_held_bind {next : S → Act (S × T) δ}
    (h : ∀ s t, J (s, t) → Keeps J (next s)) : Keeps J (held >>= next) := by
  intro u hu
  exact bind_meets.mpr (h u.1 u.2 hu u hu)

theorem keeps_hold {part : S} (h : ∀ s t, J (s, t) → J (part, t)) : Keeps J (hold part) :=
  fun u hu => h u.1 u.2 hu

/-- What holds for every storage is kept by acts on the world. -/
theorem Keeps.inWorld {act : Act T β} (h : ∀ s, Keeps (fun t => J (s, t)) act) :
    Keeps J (inWorld act) := by
  intro u hu
  exact inWorld_meets.mpr (h u.1 u.2 hu)

/-- What is known of a value that comes from the rest. -/
theorem Yields.inWorld {act : Act T β} (h : ∀ s, Yields (fun t => J (s, t)) P act) :
    Yields J P (inWorld act) := by
  intro u hu
  exact inWorld_meets.mpr (h u.1 u.2 hu)

section Beside

variable {L : S → Prop} {M : T → Prop}

/-- What holds of the first part stays so while the rest is worked on. -/
theorem Keeps.beside {act : Act T β} (h : Keeps M act) :
    Keeps (fun u : S × T => L u.1 ∧ M u.2) (Act.inWorld act) :=
  .inWorld fun _ t ht => (h t ht.2).always_imp fun _ ht' => ⟨ht.1, ht'⟩

/-- So it does while the rest is worked on for a value. -/
theorem Yields.beside {act : Act T β} (h : Yields M P act) :
    Yields (fun u : S × T => L u.1 ∧ M u.2) P (Act.inWorld act) :=
  .inWorld fun _ t ht => (h t ht.2).imp (fun _ _ ht' => ⟨ht'.1, ht.1, ht'.2⟩)
    (fun _ _ ht' => ⟨ht.1, ht'⟩) (fun _ _ ht' => ⟨ht.1, ht'⟩)

end Beside

end Growable.Act
