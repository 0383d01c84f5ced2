import Growable.Act

/-!
# What an act is claimed to do

A claim about an act speaks of each of its three endings: `Post` holds what is claimed when the act is
done, when it is refused and when it faults, and `Outcome.Meets` says that an outcome is as claimed.

Every way of putting acts together has a law here that reduces a claim about the whole to claims about
the parts (`bind_meets`, `onFault_meets`, `ensuring_meets`, `owning_meets`, ...).  A claim about an
operation is proved by rewriting with these laws down to the operations that it calls, whose own claims
are weakened to what is needed with `Outcome.Meets.imp`.
-/

namespace Growable

variable {S T R β δ : Type}

/-- What is claimed of an act, for each of the three ways in which it can end. -/
structure Post (S β : Type) where
  done : β → S → Prop
  refused : SequenceError → S → Prop
  faulted : Fault → S → Prop

/-- The claim that a state is left behind which satisfies `P`, however the act ends. -/
def Post.always (P : S → Prop) : Post S β := ⟨fun _ => P, fun _ => P, fun _ => P⟩

/-- The claim that the act is done, and what is so then. -/
def Post.returns (P : β → S → Prop) : Post S β := ⟨P, fun _ _ => False, fun _ _ => False⟩

/-- The outcome is as claimed. -/
def Outcome.Meets (o : Outcome S β) (post : Post S β) : Prop :=
  match o with
  | .done b s => post.done b s
  | .refused e s => post.refused e s
  | .faulted f s => post.faulted f s

namespace Outcome

@[simp] theorem done_meets {b : β} {s : S} {post : Post S β} :
    (Outcome.done b s).Meets post ↔ post.done b s := Iff.rfl

@[simp] theorem refused_meets {e : SequenceError} {s : S} {post : Post S β} :
    (Outcome.refused e s).Meets post ↔ post.refused e s := Iff.rfl

@[simp] theorem faulted_meets {f : Fault} {s : S} {post : Post S β} :
    (Outcome.faulted f s).Meets post ↔ post.faulted f s := Iff.rfl

/-- A claim may be weakened, ending by ending. -/
theorem Meets.imp {o : Outcome S β} {post post' : Post S β} (h : o.Meets post)
    (hdone : ∀ b s, post.done b s → post'.done b s)
    (hrefused : ∀ e s, post.refused e s → post'.refused e s)
    (hfaulted : ∀ f s, post.faulted f s → post'.faulted f s) : o.Meets post' := by
  cases o with
  | done b s => exact hdone b s h
  | refused e s => exact hrefused e s h
  | faulted f s => exact hfaulted f s h

/-- Two claims about one outcome. -/
theorem Meets.and {o : Outcome S β} {post post' : Post S β} (h : o.Meets post)
    (h' : o.Meets post') : o.Meets ⟨fun b s => post.done b s ∧ post'.done b s,
      fun e s => post.refused e s ∧ post'.refused e s,
      fun f s => post.faulted f s ∧ post'.faulted f s⟩ := by
  cases o <;> exact ⟨h, h'⟩

/-- An act that is done for sure meets every claim about being done that it implies. -/
theorem Meets.of_returns {o : Outcome S β} {P : β → S → Prop} {post : Post S β}
    (h : o.Meets (.returns P)) (hdone : ∀ b s, P b s → post.done b s) : o.Meets post :=
  h.imp hdone (fun _ _ => False.elim) (fun _ _ => False.elim)

/-- An act that is done for sure is done. -/
theorem Meets.exists_done {o : Outcome S β} {P : β → S → Prop} (h : o.Meets (.returns P)) :
    ∃ b s, o = .done b s ∧ P b s := by
  cases o with
  | done b s => exact ⟨b, s, rfl, h⟩
  | refused e s => exact h.elim
  | faulted f s => exact h.elim

/-- What holds however an act ends, holds of the state that it leaves behind. -/
theorem meets_always {o : Outcome S β} {P : S → Prop} :
    o.Meets (Post.always P) ↔ P o.state := by
  cases o <;> exact Iff.rfl

/-- What holds of every state that is reached may be weakened. -/
theorem Meets.always_imp {o : Outcome S β} {P Q : S → Prop} (h : o.Meets (.always P))
    (hQ : ∀ s, P s → Q s) : o.Meets (.always Q) :=
  h.imp (fun _ => hQ) (fun _ => hQ) (fun _ => hQ)

end Outcome

namespace Act

/-! ## Laws of the ways to put acts together -/

@[simp] theorem pure_meets {b : β} {s : S} {post : Post S β} :
    ((pure b : Act S β) s).Meets post ↔ post.done b s := Iff.rfl

/-- The second act starts where the first returned; every other ending of the first ends the whole. -/
@[simp] theorem bind_meets {act : Act S β} {next : β → Act S δ} {s : S} {post : Post S δ} :
    ((act >>= next) s).Meets post ↔
      (act s).Meets ⟨fun b t => (next b t).Meets post, post.refused, post.faulted⟩ := by
  change ((act.bind next) s).Meets post ↔ _
  unfold Act.bind
  cases act s <;> exact Iff.rfl

/-- One act after another that is done for sure. -/
theorem bind_of_returns {act : Act S β} {next : β → Act S δ} {s : S} {P : β → S → Prop}
    {post : Post S δ} (h : (act s).Meets (.returns P))
    (hnext : ∀ b t, P b t → (next b t).Meets post) : ((act >>= next) s).Meets post :=
  bind_meets.mpr (h.of_returns hnext)

instance : LawfulMonad (Act S) := LawfulMonad.mk' (Act S)
  (by
    intro β act
    funext s
    change (act.bind Act.pure) s = act s
    unfold Act.bind
    cases act s <;> rfl)
  (fun _ _ => rfl)
  (by
    intro β γ δ act f g
    funext s
    change ((act.bind f).bind g) s = (act.bind fun b => (f b).bind g) s
    unfold Act.bind
    cases act s <;> rfl)

@[simp] theorem refuse_meets {e : SequenceError} {s : S} {post : Post S β} :
    ((refuse e : Act S β) s).Meets post ↔ post.refused e s := Iff.rfl

@[simp] theorem fault_meets {f : Fault} {s : S} {post : Post S β} :
    ((fault f : Act S β) s).Meets post ↔ post.faulted f s := Iff.rfl

@[simp] theorem get_meets {s : S} {post : Post S S} :
    ((get : Act S S) s).Meets post ↔ post.done s s := Iff.rfl

@[simp] theorem modify_meets {change : S → S} {s : S} {post : Post S Unit} :
    (modify change s).Meets post ↔ post.done () (change s) := Iff.rfl

/-- The value given comes out, or the error given. -/
@[simp] theorem ofExcept_meets {result : Except SequenceError β} {s : S} {post : Post S β} :
    (ofExcept result s).Meets post ↔
      (∀ b, result = .ok b → post.done b s) ∧ (∀ e, result = .error e → post.refused e s) := by
  cases result <;> simp [ofExcept]

/-- A value that is missing is a broken check. -/
@[simp] theorem ofOption_meets {check : Check} {value : Option β} {s : S} {post : Post S β} :
    (ofOption check value s).Meets post ↔
      (∀ b, value = some b → post.done b s) ∧ (value = none → post.faulted (.broken check) s) := by
  cases value <;> simp [ofOption]

/-- A condition that does not hold is a broken check. -/
@[simp] theorem require_meets {holds : Prop} [Decidable holds] {check : Check} {s : S}
    {post : Post S Unit} :
    (require holds check s).Meets post ↔
      (holds → post.done () s) ∧ (¬ holds → post.faulted (.broken check) s) := by
  unfold require
  by_cases h : holds <;> simp [h]

/-- An invariant that holds is no hindrance. -/
theorem require_eq_pure {holds : Prop} [Decidable holds] (h : holds) (check : Check) :
    (require holds check : Act S Unit) = pure () := by
  funext s
  exact if_pos h

/-- The branch that is taken is the one to be considered. -/
@[simp] theorem ite_meets {c : Prop} [Decidable c] {act act' : Act S β} {s : S} {post : Post S β} :
    ((if c then act else act') s).Meets post ↔
      (c → (act s).Meets post) ∧ (¬ c → (act' s).Meets post) := by
  by_cases h : c <;> simp [h]

/-- The clean-up runs after a fault alone, and the fault goes on. -/
@[simp] theorem onFault_meets {act : Act S β} {cleanup : Act S Unit} {s : S} {post : Post S β} :
    (onFault act cleanup s).Meets post ↔
      (act s).Meets ⟨post.done, post.refused,
        fun f t => (cleanup t).Meets (.always (post.faulted f))⟩ := by
  unfold onFault
  cases act s <;> simp [Outcome.meets_always]

/-- The clean-up runs after an error alone; a fault of its own takes its place. -/
@[simp] theorem onRefusal_meets {act : Act S β} {cleanup : Act S Unit} {s : S} {post : Post S β} :
    (onRefusal act cleanup s).Meets post ↔
      (act s).Meets ⟨post.done,
        fun e t => (cleanup t).Meets ⟨fun _ => post.refused e, post.refused, post.faulted⟩,
        post.faulted⟩ := by
  unfold onRefusal
  cases act s <;> first | exact bind_meets | exact Iff.rfl

/-- What comes last runs in every case, and is told whether a fault is under way. -/
@[simp] theorem ensuring_meets {act : Act S β} {last : Bool → Act S Unit} {s : S}
    {post : Post S β} :
    (ensuring act last s).Meets post ↔
      (act s).Meets ⟨
        fun b t => (last false t).Meets ⟨fun _ => post.done b, post.refused, post.faulted⟩,
        fun e t => (last false t).Meets ⟨fun _ => post.refused e, post.refused, post.faulted⟩,
        fun f t => (last true t).Meets (.always (post.faulted f))⟩ := by
  unfold ensuring
  cases act s <;> first | exact bind_meets | simp [Outcome.meets_always]

/-- What is answered makes no difference to what holds in any case. -/
theorem answer_meets_always {act : Act S β} {answer : β → δ} {s : S} {P : S → Prop}
    (h : (act s).Meets (.always P)) :
    ((do return answer (← act) : Act S δ) s).Meets (.always P) :=
  bind_meets.mpr (h.imp (fun _ _ => id) (fun _ _ => id) (fun _ _ => id))

/-- After a result, the next act decides. -/
theorem bind_of_done {act : Act S β} {next : β → Act S δ} {s s' : S} {b : β}
    (h : act s = .done b s') : (act >>= next) s = next b s' := by
  change (act.bind next) s = _
  unfold Act.bind
  rw [h]

/-- After an error, nothing follows. -/
theorem bind_of_refused {act : Act S β} {next : β → Act S δ} {s s' : S} {e : SequenceError}
    (h : act s = .refused e s') : (act >>= next) s = .refused e s' := by
  change (act.bind next) s = _
  unfold Act.bind
  rw [h]

/-- After a fault, nothing follows. -/
theorem bind_of_faulted {act : Act S β} {next : β → Act S δ} {s s' : S} {f : Fault}
    (h : act s = .faulted f s') : (act >>= next) s = .faulted f s' := by
  change (act.bind next) s = _
  unfold Act.bind
  rw [h]

theorem ofExcept_bind_ok {b : β} {next : β → Act S δ} : (ofExcept (.ok b) >>= next) = next b := rfl

/-! ## Laws of acts on parts of a state -/

theorem held_bind {next : S → Act (S × T) δ} {s : S} {t : T} :
    (held >>= next) (s, t) = next s (s, t) := rfl

/-- The storage stands still while the world changes. -/
@[simp] theorem inWorld_meets {act : Act T β} {s : S} {t : T} {post : Post (S × T) β} :
    (inWorld act (s, t)).Meets post ↔
      (act t).Meets ⟨fun b t => post.done b (s, t), fun e t => post.refused e (s, t),
        fun f t => post.faulted f (s, t)⟩ := by
  simp only [inWorld]
  cases act t <;> exact Iff.rfl

@[simp] theorem held_meets {s : S} {t : T} {post : Post (S × T) S} :
    (held (s, t)).Meets post ↔ post.done s (s, t) := Iff.rfl

@[simp] theorem hold_meets {part s : S} {t : T} {post : Post (S × T) Unit} :
    (hold part (s, t)).Meets post ↔ post.done () (part, t) := Iff.rfl

/-- The second storage stands still. -/
@[simp] theorem onFirst_meets {act : Act (S × T) β} {s : S} {r : R} {t : T}
    {post : Post ((S × R) × T) β} :
    (onFirst act ((s, r), t)).Meets post ↔
      (act (s, t)).Meets ⟨fun b u => post.done b ((u.1, r), u.2),
        fun e u => post.refused e ((u.1, r), u.2), fun f u => post.faulted f ((u.1, r), u.2)⟩ := by
  simp only [onFirst]
  cases act (s, t) <;> exact Iff.rfl

/-- The first storage stands still. -/
@[simp] theorem onSecond_meets {act : Act (S × T) β} {s : S} {r : R} {t : T}
    {post : Post ((R × S) × T) β} :
    (onSecond act ((r, s), t)).Meets post ↔
      (act (s, t)).Meets ⟨fun b u => post.done b ((r, u.1), u.2),
        fun e u => post.refused e ((r, u.1), u.2), fun f u => post.faulted f ((r, u.1), u.2)⟩ := by
  simp only [onSecond]
  cases act (s, t) <;> exact Iff.rfl

/-- A value that is owned is given up after an error and after a fault. -/
@[simp] theorem owning_meets {start : S} {discard : Bool → S → Act T Unit}
    {act : Act (S × T) β} {t : T} {post : Post T (S × β)} :
    (owning start discard act t).Meets post ↔
      (act (start, t)).Meets ⟨fun b u => post.done (u.1, b) u.2,
        fun e u => (discard false u.1 u.2).Meets
          ⟨fun _ => post.refused e, post.refused, post.faulted⟩,
        fun f u => (discard true u.1 u.2).Meets (.always (post.faulted f))⟩ := by
  unfold owning
  cases act (start, t) <;> first | exact bind_meets | simp [Outcome.meets_always]

/-- The part that is handed over is as it was left, whatever is done with one that is not. -/
theorem owning_meets_part {start : S} {discard : Bool → S → Act T Unit} {act : Act (S × T) β} {t : T}
    {P : S → Prop} (h : (act (start, t)).Meets (.always fun u => P u.1)) :
    (owning start discard act t).Meets ⟨fun r _ => P r.1, fun _ _ => True, fun _ _ => True⟩ := by
  refine owning_meets.mpr (h.imp (fun _ _ => id) ?_ ?_)
  · exact fun _ _ _ => Outcome.meets_always.mpr trivial
  · exact fun _ _ _ => Outcome.meets_always.mpr trivial

end Act

end Growable
