import Growable.Proofs.Evolution
import Growable.Proofs.ListAct

/-!
# Refusals

An act that is refused should leave what it worked on as it was.  `Act.Atomic` says so of an act on a part
of the state and the rest.  It holds of an act that is never refused (`Act.Firm`), and an act stays atomic
when such an act follows it: once something is changed, nothing may be refused any more.

An act that asks an iterator again and again is not atomic.  How far it came can be read off the trace:
`Feed.Interrupted feed n` says that the iterator yielded `n` members and one more, which was refused.
-/

namespace Growable

variable {S T R β δ γ : Type}

/-- The claim that `P` holds of a refusal; of the other endings nothing is claimed. -/
def Post.refusing (P : SequenceError → S → Prop) : Post S β := ⟨fun _ _ => True, P, fun _ _ => True⟩

/-- What is claimed of a refusal, of all that is claimed of an outcome. -/
theorem Outcome.Meets.refusing {o : Outcome S β} {post : Post S β} (h : o.Meets post)
    {P : SequenceError → S → Prop} (hrefused : ∀ e s, post.refused e s → P e s) :
    o.Meets (.refusing P) :=
  h.imp (fun _ _ _ => trivial) hrefused (fun _ _ _ => trivial)

namespace Act

/-- The act is never refused. -/
def Firm (act : Act S β) : Prop := ∀ s, (act s).Meets (.refusing fun _ _ => False)

/-- If the act is refused, the first part of the state is as it was. -/
def Atomic (act : Act (S × T) β) : Prop := ∀ u, (act u).Meets (.refusing fun _ u' => u'.1 = u.1)

/-! ## Acts that are never refused -/

theorem firm_pure (b : β) : Firm (pure b : Act S β) := fun _ => trivial

theorem firm_fault (f : Fault) : Firm (fault f : Act S β) := fun _ => trivial

theorem firm_modify (change : S → S) : Firm (modify change) := fun _ => trivial

theorem firm_held : Firm (held : Act (S × T) S) := fun _ => trivial

theorem firm_hold (part : S) : Firm (hold part : Act (S × T) Unit) := fun _ => trivial

theorem firm_ofOption (check : Check) (value : Option β) : Firm (ofOption check value : Act S β) := by
  intro s
  cases value <;> trivial

theorem firm_require (holds : Prop) [Decidable holds] (check : Check) :
    Firm (require holds check : Act S Unit) := by
  intro s
  exact require_meets.mpr ⟨fun _ => trivial, fun _ => trivial⟩

/-- Acts that refuse nothing compose. -/
theorem Firm.bind {act : Act S β} {next : β → Act S δ} (hact : Firm act)
    (hnext : ∀ b, Firm (next b)) : Firm (act >>= next) := by
  intro s
  exact bind_meets.mpr ((hact s).imp (fun b t _ => hnext b t) (fun _ _ => id) (fun _ _ => id))

/-- Neither branch refuses. -/
theorem Firm.ite {c : Prop} [Decidable c] {act act' : Act S β} (hpos : Firm act) (hneg : Firm act') :
    Firm (if c then act else act') := by
  intro s
  exact ite_meets.mpr ⟨fun _ => hpos s, fun _ => hneg s⟩

/-- The clean-up after a fault does not change that the act ended in one. -/
theorem Firm.onFault {act : Act S β} {cleanup : Act S Unit} (hact : Firm act) :
    Firm (onFault act cleanup) := by
  intro s
  exact onFault_meets.mpr ((hact s).imp (fun _ _ => id) (fun _ _ => id)
    (fun _ t _ => Outcome.meets_always.mpr trivial))

/-- Neither the act nor what comes last refuses. -/
theorem Firm.ensuring {act : Act S β} {last : Bool → Act S Unit} (hact : Firm act)
    (hlast : ∀ unwinding, Firm (last unwinding)) : Firm (ensuring act last) := by
  intro s
  exact ensuring_meets.mpr ((hact s).imp (fun _ t _ => hlast false t) (fun _ _ => False.elim)
    (fun _ t _ => Outcome.meets_always.mpr trivial))

/-- An act on the world that refuses nothing does so beside a storage. -/
theorem Firm.inWorld {act : Act T β} (hact : Firm act) : Firm (inWorld act : Act (S × T) β) :=
  fun u => inWorld_meets.mpr (hact u.2)

/-- An act on the first storage refuses nothing if it does so by itself. -/
theorem Firm.onFirst {act : Act (S × T) β} (hact : Firm act) :
    Firm (onFirst act : Act ((S × R) × T) β) :=
  fun u => onFirst_meets.mpr (hact (u.1.1, u.2))

/-- An act on the second storage refuses nothing if it does so by itself. -/
theorem Firm.onSecond {act : Act (S × T) β} (hact : Firm act) :
    Firm (onSecond act : Act ((R × S) × T) β) :=
  fun u => onSecond_meets.mpr (hact (u.1.2, u.2))

theorem firm_record {σ α : Type} (e : Event α) : Firm (World.record e : Act (World σ α) Unit) :=
  firm_modify _

/-! ## Acts that change nothing when they are refused -/

/-- What refuses nothing leaves nothing half done by a refusal. -/
theorem Firm.atomic {act : Act (S × T) β} (hact : Firm act) : Atomic act :=
  fun u => (hact u).imp (fun _ _ => id) (fun _ _ => False.elim) (fun _ _ => id)

/-- Where nothing that follows is refused, the first act decides about refusals. -/
theorem refusing_bind {act : Act S β} {next : β → Act S δ} {s : S} {P : SequenceError → S → Prop}
    (hact : (act s).Meets (.refusing P)) (hnext : ∀ b, Firm (next b)) :
    ((act >>= next) s).Meets (.refusing P) := by
  refine bind_meets.mpr (hact.imp (fun b t _ => ?_) (fun _ _ => id) (fun _ _ => id))
  exact (hnext b t).refusing fun _ _ => False.elim

/-- Once something is changed, nothing is refused any more. -/
theorem Atomic.bind_firm {act : Act (S × T) β} {next : β → Act (S × T) δ} (hact : Atomic act)
    (hnext : ∀ b, Firm (next b)) : Atomic (act >>= next) :=
  fun u => refusing_bind (hact u) hnext

/-- The first part is only looked at. -/
theorem atomic_held_bind {next : S → Act (S × T) δ} (hnext : ∀ s, Atomic (next s)) :
    Atomic (held >>= next) :=
  fun u => bind_meets.mpr (hnext u.1 u)

/-- The rest is changed first. -/
theorem atomic_inWorld_bind (act : Act T β) {next : β → Act (S × T) δ} (hnext : ∀ b, Atomic (next b)) :
    Atomic (inWorld act >>= next) := by
  intro u
  apply bind_meets.mpr
  apply inWorld_meets.mpr
  cases act u.2 with
  | done b t => exact hnext b (u.1, t)
  | refused e t => rfl
  | faulted f t => trivial

/-- A check that comes first refuses with nothing done. -/
theorem atomic_ofExcept_bind (result : Except SequenceError β) {next : β → Act (S × T) δ}
    (hnext : ∀ b, Atomic (next b)) : Atomic (ofExcept result >>= next) := by
  intro u
  rw [bind_meets, ofExcept_meets]
  exact ⟨fun b _ => hnext b u, fun _ _ => rfl⟩

/-- The branch that is taken decides. -/
theorem Atomic.ite {c : Prop} [Decidable c] {act act' : Act (S × T) β} (hpos : Atomic act)
    (hneg : Atomic act') : Atomic (if c then act else act') := by
  intro u
  exact ite_meets.mpr ⟨fun _ => hpos u, fun _ => hneg u⟩

/-- What is left by an act that cleans up after a refusal, where nothing that follows is refused. -/
theorem onRefusal_bind_refusing {act : Act S β} {cleanup : Act S Unit} {next : β → Act S δ} {s : S}
    {P Q : SequenceError → S → Prop} (hact : (act s).Meets (.refusing Q))
    (hcleanup : ∀ e t, Q e t →
      (cleanup t).Meets ⟨fun _ => P e, fun _ _ => False, fun _ _ => True⟩)
    (hnext : ∀ b, Firm (next b)) : ((act.onRefusal cleanup >>= next) s).Meets (.refusing P) := by
  rw [bind_meets, onRefusal_meets]
  apply hact.imp
  · exact fun b t _ => (hnext b t).refusing fun _ _ => False.elim
  · exact fun e t ht => (hcleanup e t ht).imp (fun _ _ => id) (fun _ _ => False.elim) (fun _ _ => id)
  · exact fun _ _ _ => trivial

end Act

/-! ## What is never refused

Memory is all that the storage can be refused: element code, closures and the work on a staging area that
has its region may fault, but are not refused. -/

section Firm

variable {σ α : Type}

/-- Returning a block is never refused. -/
theorem Region.firm_release (shape : Shape) (allocator : Allocator) (r : Region) :
    Act.Firm (r.release shape allocator : Act (World σ α) Unit) := by
  apply (Act.firm_ofOption _ _).bind
  intro bytes
  apply (Act.firm_pure _).ite
  apply (Act.firm_ofOption _ _).bind
  intro block
  exact (Act.firm_modify _).bind fun _ => Act.firm_record _

namespace Element

variable (E : Element σ α)

/-- Code raises, but does not refuse. -/
theorem firm_run (code : σ → Except String β × σ) (event : Option β → Event α) :
    Act.Firm (run code event : Act (World σ α) β) := by
  intro w
  simp only [run, Act.bind_meets, Act.get_meets, Act.modify_meets]
  cases (code w.code).1 <;> trivial

theorem firm_clone (source : α) : Act.Firm (E.clone source) := firm_run _ _

/-- Cloning over an element runs code alone. -/
theorem firm_overwrite (source : α) : Act.Firm (E.overwrite source) := by
  apply Act.firm_held.bind
  intro old
  have hleft : Act.Firm (do return E.remains old source (← Act.get).code : Act (World σ α) α) :=
    fun _ => trivial
  apply hleft.inWorld.bind
  intro left
  exact (firm_run _ _).inWorld.onFault.bind fun _ => Act.firm_hold _

theorem firm_default : Act.Firm E.default := firm_run _ _

/-- Dropping runs code alone. -/
theorem firm_drop (unwinding : Bool) (x : α) : Act.Firm (E.drop unwinding x) := by
  intro w
  exact (E.drop_pushes unwinding x w).refusing fun _ _ => id

theorem firm_dropAll (unwinding : Bool) (xs : List α) : Act.Firm (E.dropAll unwinding xs) := by
  induction xs generalizing unwinding with
  | nil => exact Act.firm_pure _
  | cons x rest ih => exact (E.firm_drop unwinding x).ensuring fun _ => ih _

end Element

/-- A closure raises, but does not refuse. -/
theorem Maker.firm_call (maker : Maker α) (k : Nat) : Act.Firm (maker.call k : Act (World σ α) α) := by
  unfold call
  cases maker.onCall k with
  | ok x =>
      apply (Act.firm_record _).bind
      intro _
      exact (Act.firm_record _).bind fun _ => Act.firm_pure _
  | error message => exact (Act.firm_record _).bind fun _ => Act.firm_fault _

namespace Staging

variable (E : Element σ α) (s : Staging α)

/-- A start slot out of the region is a broken check, not a refusal. -/
theorem firm_seek (slot : Nat) : Act.Firm (s.seek slot : Act (World σ α) (Staging α)) := by
  apply (Act.firm_require _ _).bind
  intro _
  exact (Act.firm_require _ _).bind fun _ => Act.firm_pure _

theorem firm_moveBefore (existing : List α) :
    Act.Firm (s.moveBefore existing : Act (World σ α) (Staging α)) :=
  (Act.firm_require _ _).bind fun _ => Act.firm_pure _

theorem firm_moveAfter (existing : List α) :
    Act.Firm (s.moveAfter existing : Act (World σ α) (Staging α)) :=
  (Act.firm_require _ _).bind fun _ => Act.firm_pure _

theorem firm_adopt : Act.Firm (s.adopt : Act (World σ α) (Region × List α)) :=
  (Act.firm_require _ _).bind fun _ => Act.firm_pure _

/-- A construction refuses only if its element does. -/
theorem firm_append {make : Act (World σ α) α} (hmake : Act.Firm make) :
    Act.Firm (s.append E make) := by
  apply Act.Firm.onFault
  apply (Act.firm_require _ _).bind
  intro _
  exact hmake.bind fun _ => Act.firm_pure _

/-- A series of constructions refuses only if one of them does. -/
theorem firm_extend {make : Nat → Act (World σ α) α} (hmake : ∀ k, Act.Firm (make k)) (k count : Nat) :
    Act.Firm (s.extend E make k count) := by
  induction count generalizing k s with
  | zero => exact Act.firm_pure _
  | succ count ih => exact (firm_append E s (hmake k)).bind fun t => ih t (k + 1)

end Staging

end Firm

/-! ## What an iterator yielded -/

/-- An iterator was asked, and yielded. -/
def Event.isYield {α : Type} : Event α → Bool
  | yielded => true
  | _ => false

/-- Upkeep asks no iterator. -/
theorem Event.isYield_of_upkeep {α : Type} {place most : Nat} (e : Event α)
    (h : e.Upkeep place most) : e.isYield = false := by
  rcases h with hchore | hdealing
  · cases hchore <;> rfl
  · cases hdealing <;> rfl

variable {σ α : Type} {w w' w'' : World σ α}

/-- How often an iterator yielded up to now. -/
def World.yields (w : World σ α) : Nat := w.trace.toList.countP Event.isYield

/-- Where no event asks an iterator, as many items have been asked for as before. -/
theorem World.Evolves.yields_eq (h : w.Evolves (fun e => e.isYield = false) w') :
    w'.yields = w.yields := by
  obtain ⟨es, _, htrace, hes, _⟩ := h
  have hnone : es.countP Event.isYield = 0 :=
    List.countP_eq_zero.mpr fun e he => by rw [hes e he]; exact Bool.false_ne_true
  rw [yields, htrace, List.countP_append, hnone, Nat.add_zero]
  rfl

/-- Asking an iterator is one question more, and owns nothing. -/
theorem World.record_yielded_meets {m : Multiset (Asset α)} (h : w.Owns m) :
    (World.record .yielded w).Meets (.returns fun _ w' => w'.Owns m ∧ w'.yields = w.yields + 1) := by
  have hpush : (w.trace.push .yielded).toList.countP Event.isYield = w.yields + 1 := by
    rw [Array.toList_push, List.countP_append]
    rfl
  exact ⟨World.record_meets rfl rfl h, hpush⟩

/-- The iterator yielded `n` members and one more in between. -/
def Feed.Interrupted (feed : Feed γ) (n : Nat) (w w' : World σ α) : Prop :=
  n < feed.members.length ∧ w'.yields = w.yields + (n + 1)

/-- The first member is refused. -/
theorem Feed.interrupted_zero (x : γ) (rest : Feed γ) (h : w'.yields = w.yields + 1) :
    (Feed.yield x rest).Interrupted 0 w w' :=
  ⟨Nat.zero_lt_succ _, h⟩

/-- A later member is refused. -/
theorem Feed.Interrupted.yield {rest : Feed γ} {n : Nat} (h : rest.Interrupted n w' w'') (x : γ)
    (hw : w'.yields = w.yields + 1) : (Feed.yield x rest).Interrupted (n + 1) w w'' :=
  ⟨Nat.succ_lt_succ h.1, by rw [h.2, hw]; omega⟩

end Growable
