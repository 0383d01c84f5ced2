import Growable.Proofs.Custody.Staging
import Growable.Proofs.Evolution

/-!
# How a construction unwinds

New elements are made by clones, by defaults or by a closure, and each of these can fault.  When one
does, the elements that were made before it are dropped, in the order in which they were made, and the
block that was granted for them goes back: the events since the beginning are `Undone`.

As long as no such code faults, the world is calm (`World.Calm`).  An act that makes elements either
leaves the world calm or undoes what it did (`Post.undoing`), and whatever it works on is as it was then
(`Post.reverting`).

* `Act.Makes` — what a clone, a default element and a call of a closure have in common;
* `Staging.assemble_undoing` — the elements are made in a region of their own.
-/

namespace Growable

open Act

variable {σ α β δ S : Type}

/-! ## Events of a construction -/

namespace Event

/-- Code that was to make an element faulted. -/
def isFailure : Event α → Bool
  | cloneFaulted _ => true
  | overwriteFaulted _ _ => true
  | defaultFaulted => true
  | callFaulted => true
  | _ => false

/-- Code that was to make an element ran, or an element came of it. -/
def isMaking : Event α → Bool
  | cloned _ _ => true
  | defaulted _ => true
  | called => true
  | received _ => true
  | _ => false

/-- Upkeep constructs nothing, so it is no failure to construct. -/
theorem isFailure_of_upkeep {place most : Nat} (e : Event α) (h : e.Upkeep place most) :
    e.isFailure = false := by
  rcases h with hchore | hdealing
  · cases hchore <;> rfl
  · cases hdealing <;> rfl

theorem isFailure_of_returning (place : Nat) :
    ∀ e : Event α, e.Upkeep place 0 → e.isFailure = false :=
  isFailure_of_upkeep

theorem isFailure_of_chore : ∀ e : Event α, e.Chore → e.isFailure = false :=
  chore_of_upkeep (isFailure_of_returning 0)

/-- A construction that succeeded is no failure. -/
theorem isFailure_of_isMaking {e : Event α} (h : e.isMaking = true) : e.isFailure = false := by
  cases e <;> first | rfl | cases h

end Event

/-- The events of a call in which making an element failed, and which undid everything it had done. -/
inductive Undone : List (Event α) → Prop
  /-- The elements made before the failure are dropped, in the order in which they were made. -/
  | failed {makings : List (Event α)} {failure : Event α} (hmakings : ∀ e ∈ makings, e.isMaking = true)
      (hfailure : failure.isFailure = true) :
      Undone (makings ++ [failure] ++ (makings.flatMap Event.entering).map (.dropped · false))
  /-- A block that was granted before all this goes back after it. -/
  | granted {es : List (Event α)} (place : Nat) (block : Block) (bytes : Nat) (h : Undone es) :
      Undone ([.granted place block bytes] ++ es ++ [.returned place block bytes])
  /-- An element that was taken over before all this is dropped after it. -/
  | taken {es : List (Event α)} (x : α) (h : Undone es) :
      Undone ([.received x] ++ es ++ [.dropped x false])
  /-- What was noted stays in the log. -/
  | noted {es : List (Event α)} (note : Note) (h : Undone es) : Undone ([.noted note] ++ es)

namespace World

/-- The events `es` came into the trace. -/
def Emits (w : World σ α) (es : List (Event α)) (w' : World σ α) : Prop :=
  w'.trace.toList = w.trace.toList ++ es

/-- In the events that came into the trace, no making of an element failed. -/
def Calm (w w' : World σ α) : Prop := ∃ es, w.Emits es w' ∧ ∀ e ∈ es, e.isFailure = false

/-- The elements `xs` were made one after the other, and nothing else happened. -/
def Made (w : World σ α) (xs : List α) (w' : World σ α) : Prop :=
  ∃ es, w.Emits es w' ∧ (∀ e ∈ es, e.isMaking = true) ∧ es.flatMap Event.entering = xs

/-- The elements `xs` were made one after the other, then making one more failed. -/
def Failed (w : World σ α) (xs : List α) (w' : World σ α) : Prop :=
  ∃ es e, w.Emits (es ++ [e]) w' ∧ (∀ e ∈ es, e.isMaking = true) ∧ e.isFailure = true ∧
    es.flatMap Event.entering = xs

/-- Making an element failed, and everything that was done was undone. -/
def Undid (w w' : World σ α) : Prop := ∃ es, w.Emits es w' ∧ Undone es

variable {w w' w'' w₀ : World σ α} {es es' : List (Event α)} {xs ys : List α}

theorem Emits.refl (w : World σ α) : w.Emits [] w := (List.append_nil _).symm

/-- What is emitted in two stretches is emitted in the whole. -/
theorem Emits.trans (h : w.Emits es w') (h' : w'.Emits es' w'') : w.Emits (es ++ es') w'' := by
  unfold Emits at *
  rw [h', h, List.append_assoc]

/-- Recording an event emits it. -/
theorem emits_record (e : Event α) (w : World σ α) :
    (record e w).Meets (.returns fun _ w' => w.Emits [e] w') :=
  Array.toList_push

theorem Calm.refl (w : World σ α) : w.Calm w := ⟨[], .refl w, by simp⟩

/-- Two calm stretches make a calm one. -/
theorem Calm.trans (h : w.Calm w') (h' : w'.Calm w'') : w.Calm w'' := by
  obtain ⟨es, hes, hcalm⟩ := h
  obtain ⟨es', hes', hcalm'⟩ := h'
  refine ⟨es ++ es', hes.trans hes', fun e he => ?_⟩
  rcases List.mem_append.mp he with he | he
  · exact hcalm e he
  · exact hcalm' e he

/-- A single event in which no making of an element fails. -/
theorem Emits.calm {e : Event α} (h : w.Emits [e] w') (he : e.isFailure = false) : w.Calm w' :=
  ⟨[e], h, by simpa using he⟩

/-- A stretch without a failing event is calm. -/
theorem Evolves.calm (h : w.Evolves (fun e => e.isFailure = false) w') : w.Calm w' := by
  obtain ⟨es, _, htrace, hes, _⟩ := h
  exact ⟨es, htrace, hes⟩

/-- Work in which no making of an element fails leaves the world calm. -/
theorem calm_of_keeps {act : Act (World σ α) β}
    (h : ∀ w₀ : World σ α, Keeps (w₀.Evolves fun e => e.isFailure = false) act) (w : World σ α) :
    (act w).Meets (.always w.Calm) :=
  (h w w (.refl w)).always_imp fun _ => Evolves.calm

theorem Made.nil (w : World σ α) : w.Made [] w := ⟨[], .refl w, by simp, rfl⟩

/-- What is made in two stretches is made in the whole. -/
theorem Made.append (h : w.Made xs w') (h' : w'.Made ys w'') : w.Made (xs ++ ys) w'' := by
  obtain ⟨es, hes, hmaking, rfl⟩ := h
  obtain ⟨es', hes', hmaking', rfl⟩ := h'
  refine ⟨es ++ es', hes.trans hes', fun e he => ?_, List.flatMap_append⟩
  rcases List.mem_append.mp he with he | he
  · exact hmaking e he
  · exact hmaking' e he

/-- Making elements is calm. -/
theorem Made.calm (h : w.Made xs w') : w.Calm w' := by
  obtain ⟨es, hes, hmaking, _⟩ := h
  exact ⟨es, hes, fun e he => Event.isFailure_of_isMaking (hmaking e he)⟩

/-- A failure after elements were made has made those. -/
theorem Made.failed (h : w.Made xs w') (h' : w'.Failed [] w'') : w.Failed xs w'' := by
  obtain ⟨es, hes, hmaking, rfl⟩ := h
  obtain ⟨es', e, hes', hmaking', he, hnone⟩ := h'
  refine ⟨es ++ es', e, ?_, fun e he => ?_, he, ?_⟩
  · rw [List.append_assoc]
    exact hes.trans hes'
  · rcases List.mem_append.mp he with he | he
    · exact hmaking e he
    · exact hmaking' e he
  · rw [List.flatMap_append, hnone, List.append_nil]

/-- After a failure, all that was made is dropped. -/
theorem Failed.undid (h : w.Failed xs w') (h' : w'.Emits (xs.map (.dropped · false)) w'') :
    w.Undid w'' := by
  obtain ⟨es, e, hes, hmaking, he, rfl⟩ := h
  exact ⟨_, hes.trans h', .failed hmaking he⟩

/-- After a failure before which nothing was made, there is nothing to undo. -/
theorem Failed.undid_nil (h : w.Failed [] w') : w.Undid w' := h.undid (.refl w')

/-- Nothing more may follow. -/
theorem Undid.of_emits_nil (h : w.Undid w') (h' : w'.Emits [] w'') : w.Undid w'' := by
  obtain ⟨es, hes, hundone⟩ := h
  refine ⟨es, ?_, hundone⟩
  have hall := hes.trans h'
  rwa [List.append_nil] at hall

/-- A note may come first. -/
theorem Undid.noted {note : Note} (h : w.Emits [.noted note] w') (h' : w'.Undid w'') :
    w.Undid w'' := by
  obtain ⟨es, hes, hundone⟩ := h'
  exact ⟨_, h.trans hes, hundone.noted note⟩

/-- An argument may be taken over first and dropped last. -/
theorem Undid.taken {x : α} {w₃ : World σ α} (h : w.Emits [.received x] w') (h' : w'.Undid w'')
    (hdrop : w''.Emits [.dropped x false] w₃) : w.Undid w₃ := by
  obtain ⟨es, hes, hundone⟩ := h'
  exact ⟨_, (h.trans hes).trans hdrop, hundone.taken x⟩

end World

/-! ## Claims -/

variable {s : S} {w w₁ w₂ w₃ w₀ : World σ α}

/-- The claim that no making of an element failed, or everything was undone. -/
def Post.undoing (w : World σ α) : Post (World σ α) β :=
  ⟨fun _ => w.Calm, fun _ => w.Calm, fun f w' => w.Calm w' ∨ f.IsRaised ∧ w.Undid w'⟩

/-- The claim that no making of an element failed, or everything was undone, and `s` is as before. -/
def Post.reverting (s : S) (w : World σ α) : Post (S × World σ α) β :=
  ⟨fun _ u => w.Calm u.2, fun _ u => w.Calm u.2,
    fun f u => w.Calm u.2 ∨ f.IsRaised ∧ u.1 = s ∧ w.Undid u.2⟩

namespace Act

/-- In the act, no making of an element fails. -/
def Calms (act : Act (S × World σ α) β) : Prop := ∀ u, (act u).Meets (.always fun u' => u.2.Calm u'.2)

/-- The act makes an element, or fails to make one. -/
def Makes (make : Act (World σ α) α) : Prop :=
  ∀ w, (make w).Meets ⟨fun x => w.Made [x], fun _ _ => False,
    fun f w' => w.Calm w' ∨ f.IsRaised ∧ w.Failed [] w'⟩

/-- An act on the world is calm if none of its events is a failure. -/
theorem calms_inWorld {act : Act (World σ α) β}
    (h : ∀ w₀ : World σ α, Keeps (w₀.Evolves fun e => e.isFailure = false) act) :
    Calms (inWorld act : Act (S × World σ α) β) :=
  fun u => inWorld_meets.mpr (World.calm_of_keeps h u.2)

/-- Calm acts compose. -/
theorem Calms.bind {act : Act (S × World σ α) β} {next : β → Act (S × World σ α) δ} (hact : Calms act)
    (hnext : ∀ b, Calms (next b)) : Calms (act >>= next) := by
  intro u
  refine bind_meets.mpr ((hact u).imp (fun b t ht => ?_) (fun _ _ => id) (fun _ _ => id))
  exact (hnext b t).always_imp fun _ => ht.trans

theorem calms_hold (part : S) : Calms (hold part : Act (S × World σ α) Unit) :=
  fun u => World.Calm.refl u.2

/-- After something was made, no more making of an element fails. -/
theorem reverting_bind {act : Act (S × World σ α) β} {next : β → Act (S × World σ α) δ}
    (hact : (act (s, w)).Meets (.reverting s w)) (hnext : ∀ b, Calms (next b)) :
    ((act >>= next) (s, w)).Meets (.reverting s w) := by
  refine bind_meets.mpr (hact.imp (fun b t ht => ?_) (fun _ _ => id) (fun _ _ => id))
  exact (hnext b t).imp (fun _ _ => ht.trans) (fun _ _ => ht.trans) (fun _ _ ht' => .inl (ht.trans ht'))

/-- An act on the world that undoes itself leaves the storage as it was. -/
theorem reverting_inWorld {act : Act (World σ α) β} (h : (act w).Meets (.undoing w)) :
    (inWorld act (s, w)).Meets (.reverting s w) :=
  inWorld_meets.mpr (h.imp (fun _ _ => id) (fun _ _ => id)
    (fun _ _ => Or.imp_right fun hu => ⟨hu.1, rfl, hu.2⟩))

/-- A check that comes first refuses with everything as it was. -/
theorem reverting_ofExcept {result : Except SequenceError β} {next : β → Act (S × World σ α) δ}
    (h : ∀ b, result = .ok b → (next b (s, w)).Meets (.reverting s w)) :
    ((ofExcept result >>= next) (s, w)).Meets (.reverting s w) := by
  rw [bind_meets, ofExcept_meets]
  exact ⟨h, fun _ _ => .refl w⟩

/-- Where nothing can fail to be constructed, there is nothing to revert. -/
theorem reverting_of_calms {act : Act (S × World σ α) β} (h : Calms act) :
    (act (s, w)).Meets (.reverting s w) :=
  (h (s, w)).imp (fun _ _ => id) (fun _ _ => id) (fun _ _ => .inl)

/-- What is noted first makes no difference. -/
theorem undoing_note {act : Act (World σ α) β} (note : Note)
    (h : ∀ w, (act w).Meets (.undoing w)) :
    ((World.note note >>= fun _ => act) w).Meets (.undoing w) := by
  apply bind_of_returns (World.emits_record (.noted note) w)
  intro _ w' hw'
  have hcalm : w.Calm w' := hw'.calm rfl
  exact (h w').imp (fun _ _ => hcalm.trans) (fun _ _ => hcalm.trans)
    (fun _ _ => Or.imp hcalm.trans fun hu => ⟨hu.1, hu.2.noted hw'⟩)

/-- A single element is made, and there is nothing to undo when that fails. -/
theorem Makes.undoing {make : Act (World σ α) α} (h : Makes make) (w : World σ α) :
    (make w).Meets (.undoing w) :=
  (h w).imp (fun _ _ hx => hx.calm) (fun _ _ => False.elim)
    (fun _ _ => Or.imp_right fun hf => ⟨hf.1, hf.2.undid_nil⟩)

/-- What an element is made from may be missing. -/
theorem makes_ofOption_bind (check : Check) (value : Option β) {make : β → Act (World σ α) α}
    (h : ∀ b, Makes (make b)) : Makes (ofOption check value >>= make) := by
  intro w
  rw [bind_meets, ofOption_meets]
  exact ⟨fun b _ => h b w, fun _ => .inl (.refl w)⟩

end Act

/-! ## Elements -/

/-- Code that makes elements, with the events of its two endings. -/
theorem Element.makes_run {code : σ → Except String α × σ} {event : Option α → Event α}
    (hmaking : ∀ x, (event (some x)).isMaking = true ∧ (event (some x)).entering = [x])
    (hfailure : (event none).isFailure = true) : Makes (run code event) := by
  intro w
  simp only [run, bind_meets, get_meets, modify_meets]
  cases (code w.code).1 with
  | ok x =>
      apply bind_of_returns (World.emits_record _ _)
      intro _ w' hw'
      exact ⟨[event (some x)], hw', by simpa using (hmaking x).1, by simpa using (hmaking x).2⟩
  | error message =>
      apply bind_of_returns (World.emits_record _ _)
      intro _ w' hw'
      exact .inr ⟨⟨message, rfl⟩, [], event none, hw', by simp, hfailure, rfl⟩

/-- A clone makes an element, or fails to. -/
theorem Element.makes_clone (E : Element σ α) (source : α) : Makes (E.clone source) :=
  makes_run (fun _ => ⟨rfl, rfl⟩) rfl

/-- A default makes an element, or fails to. -/
theorem Element.makes_default (E : Element σ α) : Makes E.default :=
  makes_run (fun _ => ⟨rfl, rfl⟩) rfl

/-- A closure makes an element, or fails to. -/
theorem Maker.makes_call (maker : Maker α) (k : Nat) : Makes (maker.call k : Act (World σ α) α) := by
  intro w
  unfold call
  cases maker.onCall k with
  | ok x =>
      apply bind_of_returns (World.emits_record .called w)
      intro _ w₁ hw₁
      apply bind_of_returns (World.emits_record (.received x) w₁)
      intro _ w₂ hw₂
      exact ⟨_, hw₁.trans hw₂, by simp [Event.isMaking], rfl⟩
  | error message =>
      apply bind_of_returns (World.emits_record .callFaulted w)
      intro _ w₁ hw₁
      exact .inr ⟨⟨message, rfl⟩, [], .callFaulted, hw₁, by simp, rfl, rfl⟩

/-- While a fault unwinds, a drop leaves one event. -/
theorem Element.drop_emits (E : Element σ α) (x : α) (w : World σ α) :
    (E.drop true x w).Meets (.returns fun _ w' => w.Emits [.dropped x false] w') := by
  apply (E.drop_pushes true x w).imp
  · exact fun _ _ hw' => (congrArg Array.toList hw'.1).trans Array.toList_push
  · exact fun _ _ => False.elim
  · exact fun _ _ hw' => Bool.false_ne_true hw'.1.symm

/-- While a fault is under way, every element is dropped. -/
theorem Element.dropAll_emits (E : Element σ α) (xs : List α) (w : World σ α) :
    (E.dropAll true xs w).Meets (.returns fun _ w' => w.Emits (xs.map (.dropped · false)) w') := by
  induction xs generalizing w with
  | nil => exact World.Emits.refl w
  | cons x rest ih =>
      apply ensuring_meets.mpr
      apply (E.drop_emits x w).of_returns
      intro _ w₁ hw₁
      exact (ih w₁).imp (fun _ _ hw₂ => hw₁.trans hw₂) (fun _ _ => False.elim) (fun _ _ => False.elim)

/-! ## Regions -/

namespace Region

variable {shape : Shape} {r : Region} {allocator : Allocator}

/-- The events by which a region is granted: one, unless it occupies no memory. -/
def granting (shape : Shape) (allocator : Allocator) (r : Region) : List (Event α) :=
  match r.block with
  | some block => [.granted allocator.place block (shape.bytes * r.capacity)]
  | none => []

/-- The events by which a region is returned: one, unless it occupies no memory. -/
def returning (shape : Shape) (allocator : Allocator) (r : Region) : List (Event α) :=
  match r.block with
  | some block => [.returned allocator.place block (shape.bytes * r.capacity)]
  | none => []

/-- Being granted a block is calm. -/
theorem calm_of_granting (h : w.Emits (r.granting shape allocator) w') : w.Calm w' := by
  refine ⟨_, h, fun e he => ?_⟩
  unfold granting at he
  split at he
  · rw [List.mem_singleton.mp he]
    rfl
  · cases he

/-- What happened between the granting of a region and its return was undone, and so is all of it. -/
theorem undid_of_returning (hgranted : w.Emits (r.granting shape allocator) w₁) (h : w₁.Undid w₂)
    (hreturned : w₂.Emits (r.returning shape allocator) w₃) : w.Undid w₃ := by
  obtain ⟨es, hes, hundone⟩ := h
  refine ⟨_, (hgranted.trans hes).trans hreturned, ?_⟩
  unfold granting returning
  cases r.block with
  | none =>
      rw [List.nil_append, List.append_nil]
      exact hundone
  | some block => exact hundone.granted _ _ _

/-- An allocation emits the grant of its block, or is declined and calm. -/
theorem allocate_emits (shape : Shape) (allocator : Allocator) (capacity : Nat) (w : World σ α) :
    (allocate shape allocator capacity w).Meets
      ⟨fun r w' => r.Valid shape ∧ w.Emits (r.granting shape allocator) w', fun _ => w.Calm,
        fun _ _ => False⟩ := by
  have hemits : (allocate shape allocator capacity w).Meets
      ⟨fun r w' => r.capacity = capacity → w.Emits (r.granting shape allocator) w', fun _ => w.Calm,
        fun _ _ => False⟩ := by
    unfold allocate
    cases hsome : bytes? shape capacity with
    | none => exact .refl w
    | some bytes =>
        obtain ⟨hbytes, _⟩ := bytes?_eq_some_iff.mp hsome
        cases bytes with
        | zero => exact fun _ => .refl w
        | succ n =>
            simp only [World.request, bind_meets, get_meets, ite_meets, modify_meets, pure_meets,
              refuse_meets]
            refine ⟨fun _ => fun _ => ?_, fun _ => ?_⟩
            · have hgranted : (w.trace.push (.granted allocator.place w.issued (n + 1))).toList
                  = w.trace.toList ++ [.granted allocator.place w.issued (shape.bytes * capacity)] := by
                rw [hbytes, Array.toList_push]
              exact hgranted
            · exact World.Emits.calm (World.emits_record (.declined allocator.place (n + 1)) w) rfl
  exact ((allocate_meets shape allocator capacity w).and hemits).imp
    (fun _ _ hr => ⟨hr.1.1, hr.2 hr.1.2.1⟩) (fun _ _ he => he.2) (fun _ _ hf => hf.1)

/-- Whatever becomes of it, a valid region is returned. -/
theorem release_emits (hr : r.Valid shape) (allocator : Allocator) (w : World σ α) :
    (release shape allocator r w).Meets
      (.always fun w' => w.Emits (r.returning shape allocator) w') := by
  simp only [release, bind_meets, ofOption_meets, ite_meets, pure_meets]
  cases hblock : r.block with
  | none =>
      have hnone : r.returning shape allocator = ([] : List (Event α)) := by simp [returning, hblock]
      rw [hnone]
      have hzero := hr.block_eq_none_iff.mp hblock
      refine ⟨fun bytes hbytes => ⟨fun _ => .refl w, fun hne => ?_⟩, fun _ => .refl w⟩
      exact absurd ((bytes?_eq_some_iff.mp hbytes).1.symm.trans hzero) hne
  | some block =>
      have hne : shape.bytes * r.capacity ≠ 0 := fun hzero => by
        simp [hr.block_eq_none_iff.mpr hzero] at hblock
      have hsome := bytes?_eq_some_iff.mpr ⟨rfl, hr.layout (by simp [hblock])⟩
      have hreturned : r.returning shape allocator
          = [(.returned allocator.place block (shape.bytes * r.capacity) : Event α)] := by
        simp [returning, hblock]
      rw [hreturned, hsome]
      refine ⟨fun bytes hbytes => ?_, fun hnone => by cases hnone⟩
      cases hbytes
      refine ⟨fun hzero => absurd hzero hne, fun _ => ⟨fun b hb => ?_, fun hnone => by cases hnone⟩⟩
      cases hb
      exact World.emits_record (.returned allocator.place block _) w

end Region

/-! ## Staging areas -/

namespace Staging

variable {E : Element σ α} {s₀ s : Staging α}

/-- The staging area is `s₀`, with elements that were made since `w₀`. -/
structure Filled (s₀ : Staging α) (w₀ : World σ α) (s : Staging α) (w : World σ α) : Prop where
  region : s.region = s₀.region
  allocator : s.allocator = s₀.allocator
  made : w₀.Made s.elements w

/-- The claim that elements are made in a staging area, or everything is undone and its region
returned. -/
def filling (E : Element σ α) (s₀ : Staging α) (w₀ : World σ α) : Post (World σ α) (Staging α) :=
  ⟨Filled s₀ w₀, fun _ _ => False, fun f w' => w₀.Calm w' ∨ f.IsRaised ∧
    ∃ w₁, w₀.Undid w₁ ∧ w₁.Emits (s₀.region.returning E.toShape s₀.allocator) w'⟩

/-- A construction that fails leaves the elements made before it to the clean-up. -/
theorem append_filling {make : Act (World σ α) α} (hmake : Makes make)
    (hregion : s₀.region.Valid E.toShape) (h : Filled s₀ w₀ s w) :
    (s.append E make w).Meets (filling E s₀ w₀) := by
  obtain ⟨hsame, hallocator, hmade⟩ := h
  have hdiscard : ∀ w', (s.discard E true w').Meets (.always fun w'' => ∃ w₁,
      w'.Emits (s.elements.map (.dropped · false)) w₁ ∧
        w₁.Emits (s₀.region.returning E.toShape s₀.allocator) w'') := by
    intro w'
    apply ensuring_meets.mpr
    apply (E.dropAll_emits s.elements w').of_returns
    intro _ w₁ hw₁
    rw [hsame, hallocator]
    exact (Region.release_emits hregion s₀.allocator w₁).always_imp fun _ hw₂ => ⟨w₁, hw₁, hw₂⟩
  -- Cleaning up is calm by itself; with a failure before it, it undoes what was made.
  have hcalm : ∀ w', w₀.Calm w' → (s.discard E true w').Meets (.always w₀.Calm) := by
    intro w' hw'
    have hdiscarded := World.calm_of_keeps (fun _ => keeps_discard E
      (Event.isFailure_of_returning _) true (s := s) ⟨rfl, rfl⟩) w'
    exact hdiscarded.always_imp fun _ => hw'.trans
  simp only [append, onFault_meets, bind_meets, require_meets, pure_meets]
  refine ⟨fun _ => ?_, fun _ => ?_⟩
  · apply (hmake w).imp
    · exact fun x w' hx => ⟨hsame, hallocator, hmade.append hx⟩
    · exact fun _ _ => False.elim
    · rintro f w' (hw' | ⟨hraised, hfailed⟩)
      · exact (hcalm w' (hmade.calm.trans hw')).always_imp fun _ => .inl
      · apply (hdiscard w').always_imp
        rintro w'' ⟨w₁, hdropped, hreturned⟩
        exact .inr ⟨hraised, w₁, (hmade.failed hfailed).undid hdropped, hreturned⟩
  · exact (hcalm w hmade.calm).always_imp fun _ => .inl

theorem extend_filling {make : Nat → Act (World σ α) α} (hmake : ∀ k, Makes (make k)) (k count : Nat)
    (hregion : s₀.region.Valid E.toShape) (h : Filled s₀ w₀ s w) :
    (s.extend E make k count w).Meets (filling E s₀ w₀) := by
  -- Along the recursion, the elements made since `w₀` are those of the staging area.
  induction count generalizing k s w with
  | zero => exact h
  | succ count ih =>
      apply bind_meets.mpr
      apply (append_filling (hmake k) hregion h).imp
      · exact fun s' w' hs' => ih (k + 1) hs'
      · exact fun _ _ => id
      · exact fun _ _ => id

/-- The act makes elements in a staging area, whatever is in it. -/
def Fills (E : Element σ α) (construct : Staging α → Act (World σ α) (Staging α)) : Prop :=
  ∀ (s : Staging α) (w : World σ α), s.region.Valid E.toShape → s.elements = [] →
    (construct s w).Meets (filling E s w)

/-- A construction fills a staging. -/
theorem fills_append {make : Act (World σ α) α} (hmake : Makes make) : Fills E (append E make) :=
  fun _ w hregion hnone => append_filling hmake hregion ⟨rfl, rfl, hnone ▸ .nil w⟩

/-- A series of constructions fills a staging. -/
theorem fills_extend {make : Nat → Act (World σ α) α} (hmake : ∀ k, Makes (make k)) (count : Nat) :
    Fills E (extend E make 0 count) :=
  fun _ w hregion hnone => extend_filling hmake 0 count hregion ⟨rfl, rfl, hnone ▸ .nil w⟩

/-- What was made for a block that is not completed is dropped, and the block goes back. -/
theorem assemble_undoing (allocator : Allocator) (capacity : Nat) (front back : List α)
    {construct : Staging α → Act (World σ α) (Staging α)} (hconstruct : Fills E construct)
    (w : World σ α) : (assemble E allocator capacity front back construct w).Meets (.undoing w) := by
  simp only [assemble, allocate, bind_meets, pure_meets]
  apply (Region.allocate_emits E.toShape allocator capacity w).imp
  · intro r w₁ hr
    obtain ⟨hregion, hgranted⟩ := hr
    have hcalm := Region.calm_of_granting hgranted
    simp only [seek_meets, Post.undoing]
    refine ⟨fun _ => ⟨fun _ => ?_, fun _ => .inl hcalm⟩, fun _ => .inl hcalm⟩
    apply (hconstruct ⟨allocator, r, front.length, []⟩ w₁ hregion rfl).imp
    · intro s w₂ hs
      have hmade : w.Calm w₂ := hcalm.trans hs.made.calm
      simp only [moveBefore_meets, moveAfter_meets, adopt_meets]
      exact ⟨fun _ => ⟨fun _ => ⟨fun _ => hmade, fun _ => .inl hmade⟩, fun _ => .inl hmade⟩,
        fun _ => .inl hmade⟩
    · exact fun _ _ => False.elim
    · rintro f w₂ (hw₂ | ⟨hraised, w', hundid, hreturned⟩)
      · exact .inl (hcalm.trans hw₂)
      · exact .inr ⟨hraised, Region.undid_of_returning hgranted hundid hreturned⟩
  · exact fun _ _ => id
  · exact fun _ _ => False.elim

end Staging

end Growable
