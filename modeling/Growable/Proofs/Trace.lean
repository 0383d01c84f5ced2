import Growable.Proofs.Unwinding

/-!
# What exactly happens

Most results say which events an operation may cause.  The ones about its parts here say exactly which
events it causes, in which order, and in which state it leaves the code of the elements: `World.Passes`.

* Clones that are made one after the other are an instance of `Element.Clones`.
* What drops come to is a function of the elements and of the state of their code: the first fault among
  them (`Element.dropFault?`), their events (`Element.dropEvents`) and the state after them
  (`Element.afterDrops`).
* Whether a region is granted is up to the allocator (`World.Grants`), and the one that is granted gets
  the next block (`Region.fresh`).
-/

namespace Growable

open Act

variable {σ α β S : Type}

/-- The claim of what is so when the act is done. -/
def Post.whenDone (P : β → S → Prop) : Post S β := ⟨P, fun _ _ => True, fun _ _ => True⟩

/-- What is known in every ending is known of a result. -/
theorem Outcome.Meets.whenDone {o : Outcome S β} {post : Post S β} {P : β → S → Prop}
    (h : o.Meets post) (hdone : ∀ b s, post.done b s → P b s) : o.Meets (.whenDone P) :=
  h.imp hdone (fun _ _ _ => trivial) (fun _ _ _ => trivial)

/-- One act after another, as far as both are done. -/
theorem Act.whenDone_bind {δ : Type} {act : Act S β} {next : β → Act S δ} {s : S} {post : Post S β}
    {P : δ → S → Prop} (h : (act s).Meets post)
    (hnext : ∀ b t, post.done b t → (next b t).Meets (.whenDone P)) :
    ((act >>= next) s).Meets (.whenDone P) :=
  bind_meets.mpr (h.imp hnext (fun _ _ _ => trivial) (fun _ _ _ => trivial))

/-- An invariant kept by the first act is there for the second. -/
theorem Act.Keeps.bind_whenDone {δ : Type} {I : S → Prop} {act : Act S β} {next : β → Act S δ} {s : S}
    {P : δ → S → Prop} (hact : Keeps I act) (hs : I s)
    (hnext : ∀ b t, I t → (next b t).Meets (.whenDone P)) : ((act >>= next) s).Meets (.whenDone P) :=
  whenDone_bind (hact s hs) hnext

/-- One act after another, of which the first works on the rest of the state. -/
theorem Act.whenDone_inWorld {T δ : Type} {act : Act T β} {next : β → Act (S × T) δ} {s : S} {w : T}
    {post : Post T β} {P : δ → S × T → Prop} (h : (act w).Meets post)
    (hnext : ∀ b w', post.done b w' → (next b (s, w')).Meets (.whenDone P)) :
    ((inWorld act >>= next) (s, w)).Meets (.whenDone P) := by
  apply bind_meets.mpr
  apply inWorld_meets.mpr
  exact h.imp hnext (fun _ _ _ => trivial) (fun _ _ _ => trivial)

namespace World

/-- The world after some events in which no allocator took part, with the element code in another
state. -/
def after (w : World σ α) (es : List (Event α)) (code : σ) : World σ α :=
  { w with trace := w.trace ++ es.toArray, code }

/-- The events `es` came into the trace, and the element code was left in the state `code`. -/
structure Passes (w : World σ α) (es : List (Event α)) (code : σ) (w' : World σ α) : Prop where
  emits : w.Emits es w'
  code_eq : w'.code = code

/-- The allocator grants a request for some bytes. -/
def Grants (w : World σ α) (allocator : Allocator) (bytes : Nat) : Prop :=
  ∃ account, w.accounts[allocator.place]? = some account ∧ account.policy account.tally bytes = true

variable {w w₁ w₂ : World σ α} {es es' : List (Event α)} {code code' : σ}

theorem after_nil (w : World σ α) : w.after [] w.code = w := by
  simp [after]

/-- A world after events, and after others, is the world after both. -/
theorem after_after (w : World σ α) (es es' : List (Event α)) (code code' : σ) :
    (w.after es code).after es' code' = w.after (es ++ es') code' := by
  simp [after, Array.append_assoc]

/-- A world after events has passed them. -/
theorem passes_after (w : World σ α) (es : List (Event α)) (code : σ) :
    w.Passes es code (w.after es code) :=
  ⟨by simp [Emits, after], rfl⟩

theorem Passes.refl (w : World σ α) : w.Passes [] w.code w := ⟨.refl w, rfl⟩

/-- What passes in two stretches passes in the whole. -/
theorem Passes.trans (h : w.Passes es code w₁) (h' : w₁.Passes es' code' w₂) :
    w.Passes (es ++ es') code' w₂ :=
  ⟨h.emits.trans h'.emits, h'.code_eq⟩

/-- A request is granted with the next block, or declined, as the policy says. -/
theorem request_passes (allocator : Allocator) (bytes : Nat) (w : World σ α) :
    (request allocator bytes w).Meets
      ⟨fun block w' => w.Grants allocator bytes ∧ block = w.issued ∧
          w.Passes [.granted allocator.place block bytes] w.code w',
        fun e w' => ¬ w.Grants allocator bytes ∧ e = .allocationFailure ∧
          w.Passes [.declined allocator.place bytes] w.code w',
        fun _ _ => False⟩ := by
  unfold request Grants
  simp only [bind_meets, get_meets, ite_meets, modify_meets, pure_meets, refuse_meets]
  cases hsome : w.accounts[allocator.place]? with
  | none =>
      refine ⟨fun h => absurd h Bool.false_ne_true, fun _ => ⟨?_, trivial, Array.toList_push, rfl⟩⟩
      rintro ⟨account, haccount, _⟩
      cases haccount
  | some account =>
      refine ⟨fun hgranted => ⟨⟨account, rfl, hgranted⟩, trivial, Array.toList_push, rfl⟩,
        fun hdeclined => ⟨?_, trivial, Array.toList_push, rfl⟩⟩
      rintro ⟨account', haccount, hgranted⟩
      cases haccount
      exact hdeclined hgranted

/-- To record an event is to be after it. -/
theorem record_eq (e : Event α) (w : World σ α) : record e w = .done () (w.after [e] w.code) := by
  change Outcome.done () _ = _
  simp [after]

/-- To note is to be after the note. -/
theorem note_eq (note : Note) (w : World σ α) :
    World.note note w = .done () (w.after [.noted note] w.code) :=
  record_eq (.noted note) w

/-- Nothing comes into the trace where no event is possible. -/
theorem Emits.silent (h : w.Emits es w₁) (hsilent : w₁.Evolves (fun _ => False) w₂) :
    w.Emits es w₂ := by
  obtain ⟨es', _, htrace, hnone, _⟩ := hsilent
  obtain rfl : es' = [] := List.eq_nil_iff_forall_not_mem.mpr hnone
  rw [List.append_nil] at htrace
  exact htrace.trans h

end World

open World

/-- The element that is dropped with an event, if one is. -/
def Event.dropped? : Event α → Option α
  | dropped x _ => some x
  | _ => none

/-! ## Clones -/

namespace Element

variable (E : Element σ α)

/-- Clones of some elements are made one after the other, and none of them faults. -/
inductive Clones (E : Element σ α) : List α → σ → List α → σ → Prop
  | nil (code : σ) : Clones E [] code [] code
  | cons {x y : α} {xs ys : List α} {code code₁ code₂ : σ} (hx : E.onClone x code = (.ok y, code₁))
      (hxs : Clones E xs code₁ ys code₂) : Clones E (x :: xs) code (y :: ys) code₂

/-- Of the clones of some elements, the first `k` come to `made`, and the next one, of `x`, faults. -/
structure ClonesUpTo (E : Element σ α) (sources : List α) (code : σ) (k : Nat) (made : List α) (x : α)
    (message : String) (code' : σ) : Prop where
  source : sources[k]? = some x
  fault : ∃ code₁, E.Clones (sources.take k) code made code₁ ∧ E.onClone x code₁ = (.error message, code')

variable {E} {x y : α} {xs ys : List α} {code code' : σ} {message : String} {w : World σ α}

/-- There are as many clones as sources. -/
theorem Clones.length_eq (h : E.Clones xs code ys code') : ys.length = xs.length := by
  induction h with
  | nil => rfl
  | cons _ _ ih => rw [List.length_cons, List.length_cons, ih]

/-- There are as many clones as sources before the one that faults. -/
theorem ClonesUpTo.length_made {k : Nat} {made : List α}
    (h : E.ClonesUpTo xs code k made x message code') : made.length = k := by
  obtain ⟨hk, _⟩ := List.getElem?_eq_some_iff.mp h.source
  obtain ⟨_, hmade, _⟩ := h.fault
  rw [hmade.length_eq, List.length_take, Nat.min_eq_left (Nat.le_of_lt hk)]

/-- Code that returns leaves its event and its state. -/
theorem run_of_ok {code : σ → Except String β × σ} {event : Option β → Event α} {b : β} {code' : σ}
    (h : code w.code = (.ok b, code')) :
    run code event w = .done b (w.after [event (some b)] code') := by
  simp only [run, Act.bind, bind, Act.get, Act.modify, h, record, pure, Act.pure, after]
  simp

/-- Code that raises leaves its event and its state as well. -/
theorem run_of_error {code : σ → Except String β × σ} {event : Option β → Event α} {code' : σ}
    (h : code w.code = (.error message, code')) :
    run code event w = .faulted (.raised message) (w.after [event none] code') := by
  simp only [run, Act.bind, bind, Act.get, Act.modify, h, record, Act.fault, after]
  simp

/-- A clone that returns has entered. -/
theorem clone_of_ok (h : E.onClone x w.code = (.ok y, code)) :
    E.clone x w = .done y (w.after [.cloned x y] code) :=
  run_of_ok h

/-- A clone that raises has not entered. -/
theorem clone_of_error (h : E.onClone x w.code = (.error message, code)) :
    E.clone x w = .faulted (.raised message) (w.after [.cloneFaulted x] code) :=
  run_of_error h

/-- What is made over an element is in its place. -/
theorem overwrite_of_ok {old : α} (h : E.onOverwrite old x w.code = (.ok y, code)) :
    E.overwrite x (old, w) = .done () (y, w.after [.overwritten old x y] code) := by
  have hmade : E.makeOver old x (E.remains old x w.code) w = .done y (w.after [.overwritten old x y] code) :=
    run_of_ok h
  simp only [overwrite, held, hold, inWorld, onFault, Act.get, bind, Act.bind, pure, Act.pure, hmade]

/-- A fault may leave another element than the old one. -/
theorem overwrite_of_error {old : α} (h : E.onOverwrite old x w.code = (.error message, code)) :
    E.overwrite x (old, w) = .faulted (.raised message) (E.remains old x w.code,
      w.after [@Event.overwriteFaulted _ old x (E.remains old x w.code)] code) := by
  have hfault : E.makeOver old x (E.remains old x w.code) w = .faulted (.raised message)
      (w.after [@Event.overwriteFaulted _ old x (E.remains old x w.code)] code) := run_of_error h
  simp only [overwrite, held, hold, inWorld, onFault, Act.get, bind, Act.bind, pure, Act.pure, hfault,
    Outcome.state]

/-! ## Drops -/

/-- The message of the first fault when some elements are dropped front to back, if there is one. -/
def dropFault? (E : Element σ α) : List α → σ → Option String
  | [], _ => none
  | x :: xs, code =>
    match E.onDrop x code with
    | (.ok (), code) => dropFault? E xs code
    | (.error message, _) => some message

/-- The events of dropping some elements front to back.  The first drop that faults is marked; those after
it do not fault. -/
def dropEvents (E : Element σ α) : List α → σ → List (Event α)
  | [], _ => []
  | x :: xs, code =>
    match E.onDrop x code with
    | (.ok (), code) => .dropped x false :: dropEvents E xs code
    | (.error _, _) => .dropped x true :: xs.map (.dropped · false)

/-- The state of the element code after some elements were dropped. -/
def afterDrops (E : Element σ α) : List α → σ → σ
  | [], code => code
  | x :: xs, code => afterDrops E xs (E.onDrop x code).2

/-- An element faults when some are dropped front to back: its drop does, in the state in which the drops
before it leave the code of the elements. -/
def SomeDropFaults (E : Element σ α) (xs : List α) (code : σ) : Prop :=
  ∃ front x back message, xs = front ++ x :: back ∧
    (E.onDrop x (E.afterDrops front code)).1 = .error message

/-- After a drop that returns, the others decide. -/
theorem someDropFaults_of_ok (hx : E.onDrop x code = (.ok (), code')) :
    E.SomeDropFaults (x :: xs) code ↔ E.SomeDropFaults xs code' := by
  have hfirst : ∀ front, E.afterDrops (x :: front) code = E.afterDrops front code' := by
    intro front
    rw [afterDrops, hx]
  constructor
  · intro h
    obtain ⟨front, y, back, message, hsplit, hfault⟩ := h
    cases front with
    | nil =>
        obtain rfl : x = y := (List.cons.inj hsplit).1
        rw [afterDrops, hx] at hfault
        cases hfault
    | cons z front =>
        obtain ⟨rfl, hrest⟩ := List.cons.inj hsplit
        exact ⟨front, y, back, message, hrest, hfirst front ▸ hfault⟩
  · intro h
    obtain ⟨front, y, back, message, hsplit, hfault⟩ := h
    exact ⟨x :: front, y, back, message, congrArg (x :: ·) hsplit, (hfirst front).symm ▸ hfault⟩

/-- There is a first fault among the drops exactly if there is one at all. -/
theorem isSome_dropFault? : (E.dropFault? xs code).isSome ↔ E.SomeDropFaults xs code := by
  induction xs generalizing code with
  | nil =>
      have hnone : ¬ E.SomeDropFaults [] code := by
        intro h
        obtain ⟨front, y, back, _, hsplit, _⟩ := h
        exact absurd hsplit.symm (List.append_ne_nil_of_right_ne_nil front (List.cons_ne_nil y back))
      exact iff_of_false Bool.false_ne_true hnone
  | cons x rest ih =>
      rcases hx : E.onDrop x code with ⟨result, code'⟩
      cases result with
      | ok _ =>
          rw [someDropFaults_of_ok hx, ← ih, dropFault?, hx]
      | error message =>
          have hfirst : E.SomeDropFaults (x :: rest) code :=
            ⟨[], x, rest, message, rfl, congrArg Prod.fst hx⟩
          rw [dropFault?, hx]
          exact iff_of_true rfl hfirst

/-- The drops are all that happens, and they happen in order. -/
theorem dropped?_dropEvents (E : Element σ α) (xs : List α) (code : σ) :
    (E.dropEvents xs code).map Event.dropped? = xs.map some := by
  induction xs generalizing code with
  | nil => rfl
  | cons x rest ih =>
      unfold dropEvents
      split
      · rw [List.map_cons, ih]
        rfl
      · rw [List.map_cons, List.map_map]
        rfl

/-- Where no drop faults, none is marked. -/
theorem dropEvents_of_calm (h : E.dropFault? xs code = none) :
    E.dropEvents xs code = xs.map (.dropped · false) := by
  induction xs generalizing code with
  | nil => rfl
  | cons x rest ih =>
      unfold dropFault? at h
      unfold dropEvents
      split at h
      · exact congrArg _ (ih h)
      · cases h

end Element

/-- The claim that an act ends in a state that satisfies `P`, and with a fault there if `fault?` is the
message of one. -/
def Post.raising (fault? : Option String) (P : S → Prop) : Post S β :=
  ⟨fun _ s => fault? = none ∧ P s, fun _ _ => False,
    fun f s => ∃ message, fault? = some message ∧ f = .raised message ∧ P s⟩

/-- What holds after the drops may be weakened. -/
theorem Outcome.Meets.raising_imp {o : Outcome S β} {fault? : Option String} {P Q : S → Prop}
    (h : o.Meets (.raising fault? P)) (hQ : ∀ s, P s → Q s) : o.Meets (.raising fault? Q) := by
  refine h.imp (fun _ s hs => ⟨hs.1, hQ s hs.2⟩) (fun _ _ => False.elim) ?_
  intro f s hs
  obtain ⟨message, hsome, hf, hP⟩ := hs
  exact ⟨message, hsome, hf, hQ s hP⟩

/-- Without a fault among the drops, the outcome is a result. -/
theorem Outcome.Meets.eq_done {o : Outcome S Unit} {s : S} (h : o.Meets (.raising none (· = s))) :
    o = .done () s := by
  cases o with
  | done _ t => exact congrArg _ h.2
  | refused e t => exact h.elim
  | faulted f t =>
      obtain ⟨_, hsome, _⟩ := h
      cases hsome

/-- With a fault among the drops, the outcome is that fault. -/
theorem Outcome.Meets.eq_faulted {o : Outcome S β} {message : String} {s : S}
    (h : o.Meets (.raising (some message) (· = s))) : o = .faulted (.raised message) s := by
  cases o with
  | done b t => cases h.1
  | refused e t => exact h.elim
  | faulted f t =>
      obtain ⟨_, hsome, rfl, rfl⟩ := h
      cases hsome
      rfl

/-- The storage stands still beside an act on the world that returns. -/
theorem Act.inWorld_of_done {T : Type} {act : Act T β} {s : S} {t t' : T} {b : β} (h : act t = .done b t') :
    inWorld act (s, t) = .done b (s, t') := by
  rw [inWorld, h]

/-- The storage stands still beside an act on the world that faults. -/
theorem Act.inWorld_of_faulted {T : Type} {act : Act T β} {s : S} {t t' : T} {f : Fault}
    (h : act t = .faulted f t') : inWorld act (s, t) = .faulted f (s, t') := by
  rw [inWorld, h]

/-- The part of a state that an act does not work on stays as it is. -/
theorem Act.raising_inWorld {T : Type} {act : Act T β} {s : S} {t : T} {fault? : Option String}
    {P : T → Prop} (h : (act t).Meets (.raising fault? P)) :
    (inWorld act (s, t)).Meets (.raising fault? fun u => u.1 = s ∧ P u.2) := by
  rw [inWorld_meets]
  exact h.raising_imp fun _ ht => ⟨rfl, ht⟩

namespace Element

variable (E : Element σ α) (xs : List α) (w : World σ α)

/-- While a fault is under way, a drop that raises is not reported. -/
theorem drop_unwinding (x : α) :
    E.drop true x w = .done () (w.after [.dropped x false] (E.onDrop x w.code).2) := by
  change Outcome.done () _ = _
  simp [after]

variable {E w}

/-- A drop that returns has the element departed. -/
theorem drop_of_ok {x : α} {code : σ} (h : E.onDrop x w.code = (.ok (), code)) :
    E.drop false x w = .done () (w.after [.dropped x false] code) := by
  simp [drop, bind, Act.bind, Act.get, Act.modify, h, record, after]

/-- A drop that raises has the element departed as well. -/
theorem drop_of_error {x : α} {message : String} {code : σ}
    (h : E.onDrop x w.code = (.error message, code)) :
    E.drop false x w = .faulted (.raised message) (w.after [.dropped x true] code) := by
  simp [drop, bind, Act.bind, Act.get, Act.modify, Act.fault, h, record, after]

variable (E w)

/-- While a fault unwinds, no drop faults again. -/
theorem dropAll_unwinding :
    E.dropAll true xs w
      = .done () (w.after (xs.map (.dropped · false)) (E.afterDrops xs w.code)) := by
  induction xs generalizing w with
  | nil => exact congrArg _ w.after_nil.symm
  | cons x rest ih =>
      rw [dropAll, ensuring, E.drop_unwinding w x]
      change (Act.bind (E.dropAll true rest) _ _) = _
      rw [Act.bind, ih]
      exact congrArg _ (w.after_after _ _ _ _)

/-- All elements are dropped, and the first fault among their drops goes on. -/
theorem dropAll_raising :
    (E.dropAll false xs w).Meets (.raising (E.dropFault? xs w.code)
      (· = w.after (E.dropEvents xs w.code) (E.afterDrops xs w.code))) := by
  induction xs generalizing w with
  | nil => exact ⟨rfl, w.after_nil.symm⟩
  | cons x rest ih =>
      rw [dropAll, ensuring_meets]
      rcases hx : E.onDrop x w.code with ⟨result, code⟩
      cases result with
      | ok _ =>
          have hrest := ih (w.after [.dropped x false] code)
          rw [after_after] at hrest
          rw [drop_of_ok hx]
          simp only [dropFault?, dropEvents, afterDrops, hx]
          exact hrest
      | error message =>
          rw [drop_of_error hx]
          simp only [dropFault?, dropEvents, afterDrops, hx, Outcome.faulted_meets, Bool.or_true,
            Outcome.meets_always, dropAll_unwinding, after_after]
          exact ⟨message, rfl, rfl, rfl⟩

end Element

/-! ## Regions -/

namespace Region

variable {shape : Shape} {r : Region}

/-- The region of some slots that is granted next: if it occupies memory, it gets the next block. -/
def fresh (shape : Shape) (n : Nat) (w : World σ α) : Region :=
  ⟨n, if shape.bytes * n = 0 then none else some w.issued⟩

/-- As many slots as a valid region has, or fewer, are not too many for a region of their own. -/
theorem Valid.bytes?_eq {n : Nat} (hr : r.Valid shape) (hfits : shape.Fits) (hle : n ≤ r.capacity) :
    bytes? shape n = some (shape.bytes * n) := by
  have hbytes : shape.bytes * n ≤ shape.bytes * r.capacity := Nat.mul_le_mul_left _ hle
  refine bytes?_eq_some_iff.mpr ⟨rfl, ?_⟩
  by_cases hnone : r.block = none
  · rw [hr.block_eq_none_iff.mp hnone, Nat.le_zero] at hbytes
    rw [hbytes, Nat.zero_add]
    exact hfits
  · exact (Nat.add_le_add_right hbytes _).trans (hr.layout hnone)

/-- An allocation requests its bytes, if there are any, and gives the fresh region. -/
theorem allocate_passes (shape : Shape) (allocator : Allocator) (n : Nat) (w : World σ α) :
    (allocate shape allocator n w).Meets
      ⟨fun r w' => (0 < shape.bytes * n → w.Grants allocator (shape.bytes * n)) ∧ r = fresh shape n w ∧
          w.Passes (r.granting shape allocator) w.code w',
        fun e w' => bytes? shape n = none ∨ 0 < shape.bytes * n ∧
          ¬ w.Grants allocator (shape.bytes * n) ∧ e = .allocationFailure ∧
          w.Passes [.declined allocator.place (shape.bytes * n)] w.code w',
        fun _ _ => False⟩ := by
  unfold allocate
  cases hsome : bytes? shape n with
  | none => exact .inl rfl
  | some bytes =>
      obtain ⟨hbytes, _⟩ := bytes?_eq_some_iff.mp hsome
      cases bytes with
      | zero =>
          have hfresh : fresh shape n w = ⟨n, none⟩ := congrArg _ (if_pos hbytes)
          exact ⟨fun hpos => absurd hbytes (Nat.ne_of_gt hpos), hfresh.symm, .refl w⟩
      | succ k =>
          have hfresh : fresh shape n w = ⟨n, some w.issued⟩ :=
            congrArg _ (if_neg (hbytes.trans_ne (Nat.succ_ne_zero k)))
          rw [hbytes, hfresh]
          apply bind_meets.mpr
          apply (World.request_passes allocator (k + 1) w).imp
          · rintro block w' ⟨hgrants, rfl, hw'⟩
            refine ⟨fun _ => hgrants, rfl, ?_⟩
            rw [granting, hbytes]
            exact hw'
          · exact fun e w' he => .inr ⟨Nat.succ_pos k, he⟩
          · exact fun _ _ => False.elim

/-- A valid region is returned, and nothing else happens. -/
theorem release_passes (hr : r.Valid shape) (hfits : shape.Fits) (allocator : Allocator)
    (w : World σ α) :
    (release shape allocator r w).Meets
      (.returns fun _ w' => w.Passes (r.returning shape allocator) w.code w') := by
  have hkeeps : Keeps (fun w' : World σ α => w'.code = w.code) (release shape allocator r) := by
    apply (keeps_ofOption _ _).bind
    intro bytes
    apply Keeps.ite (fun _ => keeps_pure ())
    intro _
    exact (keeps_ofOption _ _).bind fun _ _ h => h
  have hcode := hkeeps w rfl
  refine (((release_emits hr allocator w).and hcode).and (release_meets hr allocator w)).imp ?_ ?_ ?_
  · exact fun _ w' hw' => ⟨hw'.1.1, hw'.1.2⟩
  · exact fun _ _ hw' => hw'.2
  · exact fun _ _ hw' => hw'.2.2.1 hfits

end Region

/-! ## Staging areas -/

section Numbered

variable {γ : Type} {make : Nat → γ} {f : α → γ} {xs : List α}

/-- What is made of the elements of a list in order is so from the number zero on. -/
theorem numbered_zero (h : ∀ j x, xs[j]? = some x → make j = f x) (j : Nat) (x : α) (hx : xs[j]? = some x) :
    make (0 + j) = f x := by
  rw [Nat.zero_add]
  exact h j x hx

/-- What is made of the elements of a list, from a number on, is made of those behind the first from the next
number on. -/
theorem numbered_tail {k : Nat} {first : α} (h : ∀ j x, (first :: xs)[j]? = some x → make (k + j) = f x)
    (j : Nat) (x : α) (hx : xs[j]? = some x) : make (k + 1 + j) = f x := by
  have hnext := h (j + 1) x hx
  rwa [← Nat.add_assoc, Nat.add_right_comm] at hnext

end Numbered

namespace Staging

variable {E : Element σ α} {s : Staging α} {w : World σ α} {make : Nat → Act (World σ α) α}

/-- If clones of `xs` are made in a staging area, each came of its source. -/
theorem extend_clones {k : Nat} {xs : List α}
    (hmake : ∀ j x, xs[j]? = some x → make (k + j) = E.clone x) :
    (s.extend E make k xs.length w).Meets (.whenDone fun s' w' =>
      ∃ made code, E.Clones xs w.code made code ∧ s' = { s with elements := s.elements ++ made } ∧
        w' = w.after (List.zipWith .cloned xs made) code) := by
  induction xs generalizing k s w with
  | nil => exact ⟨[], w.code, .nil _, by rw [List.append_nil], w.after_nil.symm⟩
  | cons x rest ih =>
      have hx : make k = E.clone x := hmake 0 x rfl
      have happend : (s.append E (make k) w).Meets (.whenDone fun s' w' =>
          ∃ y code, E.onClone x w.code = (.ok y, code) ∧
            s' = { s with elements := s.elements ++ [y] } ∧ w' = w.after [.cloned x y] code) := by
        simp only [append, hx, bind_meets, onFault_meets, require_meets, pure_meets]
        refine ⟨fun _ => ?_, fun _ => Outcome.meets_always.mpr trivial⟩
        rcases hclone : E.onClone x w.code with ⟨result, code⟩
        cases result with
        | ok y =>
            rw [Element.clone_of_ok hclone]
            exact ⟨y, code, rfl, rfl, rfl⟩
        | error message =>
            rw [Element.clone_of_error hclone]
            exact Outcome.meets_always.mpr trivial
      apply whenDone_bind happend
      rintro s₁ w₁ ⟨y, code, hy, rfl, rfl⟩
      apply (ih (numbered_tail hmake)).whenDone
      rintro s₂ w₂ ⟨made, code', hmade, rfl, rfl⟩
      refine ⟨y :: made, code', .cons hy hmade, ?_, w.after_after _ _ _ _⟩
      rw [List.append_assoc]
      rfl

/-- If clones of `xs` are made in a region of exactly their number, it was granted before the first of
them was made. -/
theorem clone_all {xs : List α} (allocator : Allocator)
    (hmake : ∀ j x, xs[j]? = some x → make j = E.clone x) :
    ((do
      let s ← allocate E allocator xs.length
      let s ← s.extend E make 0 xs.length
      s.adopt : Act (World σ α) (Region × List α)) w).Meets (.whenDone fun r w' =>
        ∃ code, E.Clones xs w.code r.2 code ∧ r.1 = .fresh E.toShape xs.length w ∧
          w.Passes (r.1.granting E.toShape allocator ++ List.zipWith .cloned xs r.2) code w') := by
  rw [allocate, bind_assoc]
  apply whenDone_bind (Region.allocate_passes E.toShape allocator xs.length w)
  rintro r w₁ ⟨_, hfresh, hgranted⟩
  apply whenDone_bind (extend_clones (numbered_zero hmake))
  rintro s w₂ ⟨made, code, hmade, rfl, rfl⟩
  have hclones : E.Clones xs w.code made code := hgranted.code_eq ▸ hmade
  exact ⟨code, hclones, hfresh, hgranted.trans (passes_after _ _ _)⟩

end Staging

end Growable
