import Growable.Proofs.Post
import Growable.Size
import Growable.Source

/-!
# Acts that check what they compute

The storage computes with sizes that 64 bits can express, and it relies on invariants of its own.  The acts
of the library compute with natural numbers, and what breaks while a fault unwinds is lost.  A `Checked` act
is stricter: it stops, without an outcome, as soon as a sum, a difference or a product leaves the range of
sizes or a check does not hold, wherever that happens, also while it cleans up.

`Checked.Runs` says that a checked act never stops and comes to the outcome of a plain one.  There is one law
for each way of putting acts together; a computation that only the checked act makes is passed over where it
stays in range (`Checked.runs_sum`, `Checked.runs_difference`, ...).
-/

namespace Growable

namespace Size

/-- The difference of two sizes, unless it is negative. -/
def sub? (m n : Nat) : Option Nat :=
  if n ≤ m then some (m - n) else none

/-- The product of two sizes, unless it passes the limit. -/
def mul? (m n : Nat) : Option Nat :=
  if m * n ≤ limit then some (m * n) else none

/-- A sum in range is computed. -/
theorem add?_of_le {m n : Nat} (h : m + n ≤ limit) : add? m n = some (m + n) := if_pos h

/-- A difference that is not negative is computed. -/
theorem sub?_of_le {m n : Nat} (h : n ≤ m) : sub? m n = some (m - n) := if_pos h

/-- A product in range is computed. -/
theorem mul?_of_le {m n : Nat} (h : m * n ≤ limit) : mul? m n = some (m * n) := if_pos h

end Size

/-- An act that stops where one of its checks does not hold. -/
def Checked (S β : Type) : Type := S → Option (Outcome S β)

/-- The outcome of an act on a part, as one of an act on the whole. -/
def Outcome.map {S T β : Type} (f : S → T) : Outcome S β → Outcome T β
  | done b s => .done b (f s)
  | refused e s => .refused e (f s)
  | faulted f' s => .faulted f' (f s)

namespace Checked

variable {S T R β δ : Type}

/-- Continues an act that is done; a refusal, a fault or a stop ends the whole. -/
protected def bind (act : Checked S β) (next : β → Checked S δ) : Checked S δ := fun s =>
  match act s with
  | none => none
  | some (.done b t) => next b t
  | some (.refused e t) => some (.refused e t)
  | some (.faulted f t) => some (.faulted f t)

instance : Monad (Checked S) where
  pure b := fun s => some (.done b s)
  bind := Checked.bind

/-- An act that has nothing to check. -/
def ofAct (act : Act S β) : Checked S β := fun s => some (act s)

/-- Comes to a value that has to exist. -/
def ofOption (value : Option β) : Checked S β := fun s => value.map (.done · s)

/-- Goes on only if a check holds. -/
def require (holds : Prop) [Decidable holds] : Checked S Unit := fun s =>
  if holds then some (.done () s) else none

/-- The sum of two sizes. -/
def sum (m n : Nat) : Checked S Nat := ofOption (Size.add? m n)

/-- The difference of two sizes. -/
def difference (m n : Nat) : Checked S Nat := ofOption (Size.sub? m n)

/-- Goes on with a run of items, the number of which was computed. -/
def run (count : Nat) (items : List β) : Checked S (List β) :=
  ofOption (if items.length = count then some items else none)

/-- Goes on if a slot, or the end of the slots, has this index. -/
def slot (capacity index : Nat) : Checked S Unit := require (index ≤ capacity)

/-- Runs `cleanup` when a fault unwinds through `act`, and lets the fault go on. -/
def onFault (act : Checked S β) (cleanup : Checked S Unit) : Checked S β := fun s =>
  match act s with
  | some (.faulted f t) => (cleanup t).map fun o => .faulted f o.state
  | outcome => outcome

/-- Runs `cleanup` when `act` is refused, and lets the refusal go on unless the cleanup faults. -/
def onRefusal (act : Checked S β) (cleanup : Checked S Unit) : Checked S β := fun s =>
  match act s with
  | some (.refused e t) => (do cleanup; ofAct (Act.refuse e) : Checked S β) t
  | outcome => outcome

/-- Runs `last` however `act` ends, and tells it whether a fault is unwinding. -/
def ensuring (act : Checked S β) (last : Bool → Checked S Unit) : Checked S β := fun s =>
  match act s with
  | none => none
  | some (.done b t) => (do last false; return b : Checked S β) t
  | some (.refused e t) => (do last false; ofAct (Act.refuse e) : Checked S β) t
  | some (.faulted f t) => (last true t).map fun o => .faulted f o.state

/-- Runs an act on the second part of a state, the world around the first. -/
def inWorld (act : Checked T β) : Checked (S × T) β := fun u => (act u.2).map (·.map (u.1, ·))

/-- Runs an act that knows only the first of two things at hand. -/
def onFirst (act : Checked (S × T) β) : Checked ((S × R) × T) β := fun u =>
  (act (u.1.1, u.2)).map (·.map fun t => ((t.1, u.1.2), t.2))

/-- Runs an act that knows only the second of two things at hand. -/
def onSecond (act : Checked (S × T) β) : Checked ((R × S) × T) β := fun u =>
  (act (u.1.2, u.2)).map (·.map fun t => ((u.1.1, t.1), t.2))

/-- Runs an act that owns a part `start` of its state, which is discarded unless the act is done. -/
def owning (start : S) (discard : Bool → S → Checked T Unit) (act : Checked (S × T) β) :
    Checked T (S × β) := fun t =>
  match act (start, t) with
  | none => none
  | some (.done b u) => some (.done (u.1, b) u.2)
  | some (.refused e u) => (do discard false u.1; ofAct (Act.refuse e) : Checked T (S × β)) u.2
  | some (.faulted f u) => (discard true u.1 u.2).map fun o => .faulted f o.state

instance : LawfulMonad (Checked S) := LawfulMonad.mk' (Checked S)
  (by
    intro β act
    funext s
    change Checked.bind act pure s = act s
    unfold Checked.bind
    rcases act s with _ | b | e | f <;> rfl)
  (fun _ _ => rfl)
  (by
    intro β γ δ act f g
    funext s
    change Checked.bind (Checked.bind act f) g s = Checked.bind act (fun b => Checked.bind (f b) g) s
    unfold Checked.bind
    rcases act s with _ | b | e | f <;> rfl)

/-! ## Running without a stop -/

/-- The checked act does not stop, and comes to the outcome of the plain one. -/
def Runs (checked : Checked S β) (act : Act S β) (s : S) : Prop := checked s = some (act s)

variable {checked : Checked S β} {act : Act S β} {s : S}

/-- A value is no computation. -/
theorem runs_pure (b : β) (s : S) : (pure b : Checked S β).Runs (pure b) s := rfl

/-- A plain act has nothing to check. -/
theorem runs_ofAct (act : Act S β) (s : S) : (ofAct act).Runs act s := rfl

section Bind

variable {next : β → Checked S δ} {next' : β → Act S δ}

/-- One act after another, the second in the state that the first one leaves. -/
theorem Runs.bind (h : checked.Runs act s)
    (hnext : ∀ b t, act s = .done b t → (next b).Runs (next' b) t) :
    (checked >>= next).Runs (act >>= next') s := by
  change Checked.bind checked next s = some (Act.bind act next' s)
  unfold Checked.bind Act.bind
  rw [h]
  cases hact : act s with
  | done b t => exact hnext b t hact
  | refused e t => rfl
  | faulted f t => rfl

/-- What is answered need not be checked. -/
theorem runs_answered (answer : β → δ) (h : checked.Runs act s) :
    (do return answer (← checked) : Checked S δ).Runs (do return answer (← act)) s :=
  h.bind fun _ t _ => runs_pure _ t

/-- What follows may rely on what is known of the act. -/
theorem Runs.bind_of {post : Post S β} (h : checked.Runs act s) (hpost : (act s).Meets post)
    (hnext : ∀ b t, post.done b t → (next b).Runs (next' b) t) :
    (checked >>= next).Runs (act >>= next') s := by
  apply h.bind
  intro b t hact
  rw [hact] at hpost
  exact hnext b t hpost

/-- What is computed, in a state that stays, is the same on both sides. -/
theorem runs_done {b : β} (hchecked : checked.Runs (pure b) s) (hact : act s = .done b s)
    (hnext : (next b).Runs (next' b) s) : (checked >>= next).Runs (act >>= next') s := by
  have hruns : checked.Runs act s := hchecked.trans (congrArg some hact.symm)
  apply hruns.bind
  intro c t hdone
  cases hact.symm.trans hdone
  exact hnext

/-- A plain act may come first. -/
theorem runs_act (h : ∀ b t, act s = .done b t → (next b).Runs (next' b) t) :
    (ofAct act >>= next).Runs (act >>= next') s :=
  (runs_ofAct act s).bind h

/-- The part at hand may be looked at first. -/
theorem runs_held {s : S × T} {next : S → Checked (S × T) δ} {next' : S → Act (S × T) δ}
    (h : (next s.1).Runs (next' s.1) s) :
    (ofAct Act.held >>= next).Runs (Act.held >>= next') s := h

/-- What follows a computation that may be refused can rely on its value. -/
theorem runs_ofExcept {result : Except SequenceError β}
    (h : ∀ b, result = .ok b → (next b).Runs (next' b) s) :
    (ofAct (Act.ofExcept result) >>= next).Runs (Act.ofExcept result >>= next') s := by
  cases result with
  | ok b => exact h b rfl
  | error e => rfl

/-- A value that is there is there on both sides. -/
theorem runs_some {value : Option β} {check : Check} {b : β} (hvalue : value = some b) (s : S) :
    (ofOption value).Runs (Act.ofOption check value) s := by
  subst hvalue
  rfl

/-- A value that is there may come first. -/
theorem runs_ofOption {value : Option β} {check : Check} {b : β} (hvalue : value = some b)
    (h : (next b).Runs (next' b) s) : (ofOption value >>= next).Runs (Act.ofOption check value >>= next') s := by
  subst hvalue
  exact h

end Bind

section Computing

variable {act : Act S δ} {m n : Nat}

/-- What is computed in a state that stays. -/
theorem runs_computed {b : β} {next : β → Checked S δ} (h : checked.Runs (pure b) s)
    (hnext : (next b).Runs act s) : (checked >>= next).Runs act s := by
  change Checked.bind checked next s = _
  unfold Checked.bind
  rw [h]
  exact hnext

/-- A check that holds is passed over. -/
theorem runs_require {holds : Prop} [Decidable holds] {next : Unit → Checked S δ} (h : holds)
    (hnext : (next ()).Runs act s) : (require holds >>= next).Runs act s :=
  runs_computed (if_pos h) hnext

/-- A computation that stays in range is passed over. -/
theorem runs_value {value : Option β} {next : β → Checked S δ} {b : β} (h : value = some b)
    (hnext : (next b).Runs act s) : (ofOption value >>= next).Runs act s := by
  subst h
  exact hnext

/-- A sum that stays in range is passed over. -/
theorem runs_sum {next : Nat → Checked S δ} (h : m + n ≤ Size.limit) (hnext : (next (m + n)).Runs act s) :
    (sum m n >>= next).Runs act s :=
  runs_value (Size.add?_of_le h) hnext

/-- A difference that is not negative is passed over. -/
theorem runs_difference {next : Nat → Checked S δ} (h : n ≤ m) (hnext : (next (m - n)).Runs act s) :
    (difference m n >>= next).Runs act s :=
  runs_value (Size.sub?_of_le h) hnext

/-- A run of as many items as are asked for is passed over. -/
theorem runs_run {count : Nat} {items : List β} {next : List β → Checked S δ} (h : items.length = count)
    (hnext : (next items).Runs act s) : (run count items >>= next).Runs act s :=
  runs_value (if_pos h) hnext

/-- A slot within the capacity is passed over. -/
theorem runs_slot {capacity index : Nat} {next : Unit → Checked S δ} (h : index ≤ capacity)
    (hnext : (next ()).Runs act s) : (slot capacity index >>= next).Runs act s :=
  runs_require h hnext

/-- A check that the plain act makes as well. -/
theorem runs_both {holds : Prop} [Decidable holds] {check : Check} {next : Unit → Checked S δ}
    {next' : Unit → Act S δ} (h : holds) (hnext : (next ()).Runs (next' ()) s) :
    (require holds >>= next).Runs (Act.require holds check >>= next') s := by
  rw [Act.require_eq_pure h, pure_bind]
  exact runs_require h hnext

end Computing

/-- Both sides decide alike. -/
theorem runs_ite {c : Prop} [Decidable c] {checked checked' : Checked S β} {act act' : Act S β}
    (hpos : c → checked.Runs act s) (hneg : ¬ c → checked'.Runs act' s) :
    (if c then checked else checked').Runs (if c then act else act') s := by
  by_cases h : c
  · rw [if_pos h, if_pos h]
    exact hpos h
  · rw [if_neg h, if_neg h]
    exact hneg h

/-- What is cleaned up after a fault starts where the fault left the state. -/
theorem Runs.onFault {cleanup : Checked S Unit} {cleanup' : Act S Unit} (h : checked.Runs act s)
    (hcleanup : ∀ f t, act s = .faulted f t → cleanup.Runs cleanup' t) :
    (onFault checked cleanup).Runs (Act.onFault act cleanup') s := by
  unfold Runs Checked.onFault Act.onFault
  rw [h]
  cases hact : act s with
  | done b t => rfl
  | refused e t => rfl
  | faulted f t =>
      dsimp only
      rw [hcleanup f t hact]
      rfl

/-- What is cleaned up after a refusal starts where that left the state. -/
theorem Runs.onRefusal {cleanup : Checked S Unit} {cleanup' : Act S Unit} (h : checked.Runs act s)
    (hcleanup : ∀ e t, act s = .refused e t → cleanup.Runs cleanup' t) :
    (onRefusal checked cleanup).Runs (Act.onRefusal act cleanup') s := by
  unfold Runs Checked.onRefusal Act.onRefusal
  rw [h]
  cases hact : act s with
  | done b t => rfl
  | refused e t => exact (hcleanup e t hact).bind fun _ t _ => runs_ofAct _ t
  | faulted f t => rfl

/-- What follows may rely on what is known where the act is done; the cleanup has no part in it. -/
theorem runs_onRefusal {cleanup : Checked S Unit} {cleanup' : Act S Unit} {next : β → Checked S δ}
    {next' : β → Act S δ} {P : β → S → Prop} (h : checked.Runs act s)
    (hact : (act s).Meets ⟨P, fun _ _ => True, fun _ _ => True⟩)
    (hcleanup : ∀ e t, act s = .refused e t → cleanup.Runs cleanup' t)
    (hnext : ∀ b t, P b t → (next b).Runs (next' b) t) :
    (onRefusal checked cleanup >>= next).Runs (Act.onRefusal act cleanup' >>= next') s := by
  have hanyway : ∀ o : Outcome S Unit, o.Meets ⟨fun _ _ => True, fun _ _ => True, fun _ _ => True⟩ := by
    intro o
    cases o <;> exact trivial
  have hdone : (Act.onRefusal act cleanup' s).Meets ⟨P, fun _ _ => True, fun _ _ => True⟩ :=
    Act.onRefusal_meets.mpr (hact.imp (fun _ _ => id) (fun _ t _ => hanyway _) (fun _ _ => id))
  exact (h.onRefusal hcleanup).bind_of hdone hnext

/-- What comes last starts where the act left the state, however it ended. -/
theorem Runs.ensuring {last : Bool → Checked S Unit} {last' : Bool → Act S Unit} (h : checked.Runs act s)
    (hlast : ∀ unwinding t, t = (act s).state → (last unwinding).Runs (last' unwinding) t) :
    (ensuring checked last).Runs (Act.ensuring act last') s := by
  unfold Runs Checked.ensuring Act.ensuring
  rw [h]
  cases hact : act s with
  | done b t => exact (hlast false t (by rw [hact]; rfl)).bind fun _ t _ => runs_pure _ t
  | refused e t => exact (hlast false t (by rw [hact]; rfl)).bind fun _ t _ => runs_ofAct _ t
  | faulted f t =>
      dsimp only
      rw [hlast true t (by rw [hact]; rfl)]
      rfl

/-- An act in the world runs beside the part at hand. -/
theorem Runs.inWorld {checked : Checked T β} {act : Act T β} {u : S × T} (h : checked.Runs act u.2) :
    (inWorld checked).Runs (Act.inWorld act) u := by
  obtain ⟨s, t⟩ := u
  unfold Runs Checked.inWorld Act.inWorld
  dsimp only
  rw [h]
  cases act t <;> rfl

/-- What follows an act in the world finds the part at hand as it was. -/
theorem runs_inWorld {checked : Checked T β} {act : Act T β} {u : S × T} {next : β → Checked (S × T) δ}
    {next' : β → Act (S × T) δ} (h : checked.Runs act u.2)
    (hnext : ∀ b t, act u.2 = .done b t → (next b).Runs (next' b) (u.1, t)) :
    (Checked.inWorld checked >>= next).Runs (Act.inWorld act >>= next') u := by
  refine h.inWorld.bind fun b v hdone => ?_
  obtain ⟨s, t⟩ := u
  unfold Act.inWorld at hdone
  dsimp only at hdone
  cases hact : act t with
  | done c t' =>
      rw [hact] at hdone
      cases hdone
      exact hnext b t' hact
  | refused e t' =>
      rw [hact] at hdone
      cases hdone
  | faulted f t' =>
      rw [hact] at hdone
      cases hdone

/-- What follows finds the part that was put in place. -/
theorem runs_hold {part : S} {u : S × T} {next : Unit → Checked (S × T) δ}
    {next' : Unit → Act (S × T) δ} (h : (next ()).Runs (next' ()) (part, u.2)) :
    (ofAct (Act.hold part) >>= next).Runs (Act.hold part >>= next') u := h

/-- An act on the first of two parts runs beside the second. -/
theorem Runs.onFirst {checked : Checked (S × T) β} {act : Act (S × T) β} {u : (S × R) × T}
    (h : checked.Runs act (u.1.1, u.2)) : (onFirst checked).Runs (Act.onFirst act) u := by
  obtain ⟨⟨s, r⟩, t⟩ := u
  unfold Runs Checked.onFirst Act.onFirst
  dsimp only
  rw [h]
  cases act (s, t) <;> rfl

/-- What follows finds the other thing as it was. -/
theorem runs_onFirst {checked : Checked (S × T) β} {act : Act (S × T) β} {u : (S × R) × T}
    {next : β → Checked ((S × R) × T) δ} {next' : β → Act ((S × R) × T) δ}
    (h : checked.Runs act (u.1.1, u.2))
    (hnext : ∀ b v, act (u.1.1, u.2) = .done b v → (next b).Runs (next' b) ((v.1, u.1.2), v.2)) :
    (Checked.onFirst checked >>= next).Runs (Act.onFirst act >>= next') u := by
  refine h.onFirst.bind fun b v hdone => ?_
  obtain ⟨⟨s, r⟩, t⟩ := u
  unfold Act.onFirst at hdone
  dsimp only at hdone
  cases hact : act (s, t) with
  | done c v' =>
      rw [hact] at hdone
      cases hdone
      exact hnext b v' hact
  | refused e v' =>
      rw [hact] at hdone
      cases hdone
  | faulted f v' =>
      rw [hact] at hdone
      cases hdone

/-- An act on the second of two parts runs beside the first. -/
theorem Runs.onSecond {checked : Checked (S × T) β} {act : Act (S × T) β} {u : (R × S) × T}
    (h : checked.Runs act (u.1.2, u.2)) : (onSecond checked).Runs (Act.onSecond act) u := by
  obtain ⟨⟨r, s⟩, t⟩ := u
  unfold Runs Checked.onSecond Act.onSecond
  dsimp only
  rw [h]
  cases act (s, t) <;> rfl

/-- What is owned is discarded where the act left it. -/
theorem Runs.owning {checked : Checked (S × T) β} {act : Act (S × T) β} {start : S} {t : T}
    {discard : Bool → S → Checked T Unit} {discard' : Bool → S → Act T Unit}
    (h : checked.Runs act (start, t))
    (hdiscard : ∀ unwinding u, u = (act (start, t)).state →
      (discard unwinding u.1).Runs (discard' unwinding u.1) u.2) :
    (owning start discard checked).Runs (Act.owning start discard' act) t := by
  unfold Runs Checked.owning Act.owning
  rw [h]
  cases hact : act (start, t) with
  | done b u => rfl
  | refused e u => exact (hdiscard false u (by rw [hact]; rfl)).bind fun _ t _ => runs_ofAct _ t
  | faulted f u =>
      dsimp only
      rw [hdiscard true u (by rw [hact]; rfl)]
      rfl

/-! ## Items that are read -/

/-- Pushes the items of an iterator up to the first one that is not valid, and says whether all were. -/
def pushValid {γ : Type} (push : γ → Checked S Unit) : Feed (Option γ) → Checked S Bool
  | .finish => return true
  | .raise message => ofAct (Act.fault (.raised message))
  | .yield none _ => return false
  | .yield (some item) rest => do
    push item
    pushValid push rest

/-- Items are pushed one by one as long as each push leaves a state in which the next one runs. -/
theorem runs_pushValid {γ : Type} {checkedPush : γ → Checked S Unit} {push : γ → Act S Unit} {I : S → Prop}
    (hruns : ∀ x s, I s → (checkedPush x).Runs (push x) s)
    (hkept : ∀ x s, I s → (push x s).Meets ⟨fun _ t => I t, fun _ _ => True, fun _ _ => True⟩)
    (items : Feed (Option γ)) {s : S} (hs : I s) :
    (pushValid checkedPush items).Runs (items.pushValid push) s := by
  induction items generalizing s with
  | finish => exact runs_pure _ _
  | raise message => exact runs_ofAct _ _
  | yield item rest ih =>
      cases item with
      | none => exact runs_pure _ _
      | some x => exact (hruns x s hs).bind_of (hkept x s hs) fun _ t ht => ih ht

end Checked

end Growable
