import Growable.Proofs.BitSequence.Evolution
import Growable.Proofs.Custody.Blocks
import Growable.Proofs.Program.Custody
import Growable.Proofs.Sequence.Evolution

/-!
# How a program evolves the world

What a command leaves in the trace, as far as memory is concerned.  For what grows a container, its own
handle decides how much is asked for (`Edit.perform_evolves`, `BitEdit.perform_evolves`); what copies or
moves contents, or gives up spare room, asks for no more than is there already, and hence for no more
than was once asked for.

* `Workspace.Advances` — a command leaves a later world, and containers of which something is known;
* `Workspace.Bounded` — containers whose handles have something in common, in an orderly world;
* `Workspace.Bounded.run`, `Workspace.Bounded.runAll` — what is so of all handles that are brought in stays
  so; and where none of them admits more than a limit, no allocator is asked for more.
-/

namespace Growable

open Act

variable {σ α : Type} {E : Element σ α} {w₀ : World σ α} {Q : Event α → Prop} {most : Nat}

/-- A region that stays behind where its contents are moved away is the one that was there, or none. -/
theorem Region.capacity_le_of_left {r r' : Region} {p : Prop} (h : r = r' ∨ p ∧ r = .empty) :
    r.capacity ≤ r'.capacity := by
  rcases h with rfl | ⟨_, rfl⟩
  · exact Nat.le_refl _
  · exact Nat.zero_le _

namespace Container

/-- The handle of a container. -/
def handle : Container α → Handle
  | elements s => s.handle
  | bits s => s.handle

/-- The memory in which the items lie. -/
def region : Container α → Region
  | elements s => s.region
  | bits s => s.region

/-- The number of elements, or bits, that there is room for. -/
def capacity : Container α → Nat
  | elements s => s.capacity
  | bits s => s.capacity

/-- The most elements, or bits, that the handle admits. -/
def maxSize (E : Element σ α) : Container α → Nat
  | elements s => s.maxSize E
  | bits s => s.maxSize

/-- The bytes that a container occupies. -/
def bytes (E : Element σ α) : Container α → Nat
  | elements s => E.bytes * s.capacity
  | bits s => Word.shape.bytes * s.words.size

/-- The bytes that the contents of a container take. -/
def contentBytes (E : Element σ α) : Container α → Nat
  | elements s => E.bytes * s.len
  | bits s => Word.shape.bytes * Word.wordsFor s.len

/-- The handle admits all the room that there is. -/
def Admitted (E : Element σ α) (c : Container α) : Prop := c.capacity ≤ c.maxSize E

/-- The first container has the handle of the second one, and no more room. -/
structure NoLarger (E : Element σ α) (c d : Container α) : Prop where
  handle : c.handle = d.handle
  capacity : c.capacity ≤ d.capacity
  maxSize : c.maxSize E = d.maxSize E

/-- The content of a valid container lies within its block. -/
theorem contentBytes_le {c : Container α} (hc : c.Valid E) : c.contentBytes E ≤ c.bytes E := by
  cases c with
  | elements s => exact Nat.mul_le_mul_left _ hc.len_le
  | bits s => exact Nat.mul_le_mul_left _ (Word.wordsFor_le.mpr hc.len_le)

/-- A bit sequence is admitted if its words are. -/
theorem admitted_bits {s : BitSequence} : (bits s : Container α).Admitted E ↔ s.words.size ≤ s.maxWords :=
  Nat.mul_le_mul_right_iff (by decide)

/-- What is no larger under the same handle is admitted as well. -/
theorem Admitted.of_noLarger {c d : Container α} (hd : d.Admitted E) (h : c.NoLarger E d) :
    c.Admitted E :=
  h.capacity.trans (hd.trans h.maxSize.ge)

/-- For sequences this is about the capacity of the region. -/
theorem noLarger_elements {s t : Sequence α} (hhandle : s.handle = t.handle)
    (hcapacity : s.region.capacity ≤ t.region.capacity) :
    (elements s).NoLarger E (elements t) :=
  ⟨hhandle, hcapacity, congrArg (Handle.maxSize · E.bytes) hhandle⟩

/-- For bit sequences it is about the number of words. -/
theorem noLarger_bits {s t : BitSequence} (hhandle : s.handle = t.handle)
    (hsize : s.words.size ≤ t.words.size) : (bits s : Container α).NoLarger E (bits t) := by
  refine ⟨hhandle, Nat.mul_le_mul_right _ hsize, ?_⟩
  rw [maxSize, maxSize, BitSequence.maxSize, BitSequence.maxSize, BitSequence.maxWords,
    BitSequence.maxWords, hhandle]

end Container

/-- The handle that a command brings in. -/
def Command.handle? : Command σ α → Option Handle
  | create _ _ handle => some handle
  | createBits _ _ handle => some handle
  | _ => none

/-! ## Operations -/

/-- Shrinking apart, an operation on a sequence asks for no more than the sequence's handle admits. -/
theorem Edit.perform_evolves {s : Sequence α} {w : World σ α} {P : Region → Prop} (e : Edit α)
    (hQ : ∀ e : Event α, e.Local s.handle.allocator.place most → Q e) (hmax : s.handle.maxBytes ≤ most)
    (hregion : P s.region) (hP : ∀ r, r.capacity ≤ s.maxSize E → P r)
    (hshrink : e = .shrink → E.bytes * s.len ≤ most ∧ ∀ r, r.capacity ≤ s.len → P r)
    (hw : w₀.Evolves Q w) : (e.perform E (s, w)).Meets (.always (Sequence.Under s.handle P Q w₀)) := by
  have hupkeep := Event.upkeep_of_local hQ
  have hunasked := Event.unasked_of_local hQ
  have hchore := Event.chore_of_local hQ
  have hanswered : ∀ {β : Type} {act : SequenceAct σ α β} {answer : β → Answer α},
      Keeps (Sequence.Under s.handle P Q w₀) act →
      ((do return answer (← act) : SequenceAct σ α (Answer α)) (s, w)).Meets
        (.always (Sequence.Under s.handle P Q w₀)) :=
    fun hact => answer_meets_always (hact (s, w) ⟨⟨rfl, hregion⟩, hw⟩)
  cases e with
  | shrink =>
      obtain ⟨hle, hsmaller⟩ := hshrink rfl
      exact answer_meets_always (Sequence.shrink_evolves hupkeep ⟨rfl, hregion⟩ hle hsmaller hw)
  | reserve capacity => exact hanswered (Sequence.keeps_reserve hupkeep hmax hP capacity)
  | reserveMore additional => exact hanswered (Sequence.keeps_reserveMore hupkeep hmax hP additional)
  | push x => exact hanswered (Sequence.keeps_push hupkeep hmax hP x)
  | pushBy maker => exact hanswered (Sequence.keeps_pushBy hupkeep hmax hP (maker.keeps_call 0 hunasked))
  | pop => exact hanswered (Sequence.keeps_pop hchore)
  | insert position x => exact hanswered (Sequence.keeps_insert hupkeep hmax hP position x)
  | insertBy position maker =>
      exact hanswered (Sequence.keeps_insertBy hupkeep hmax hP position (maker.keeps_call 0 hunasked))
  | erase index => exact hanswered (Sequence.keeps_erase hchore index)
  | truncate n => exact hanswered (Sequence.keeps_truncate hchore n)
  | clear => exact hanswered (Sequence.keeps_truncate hchore 0)
  | resize n x => exact hanswered (Sequence.keeps_resize hQ hmax hP n x)
  | resizeDefault n =>
      exact hanswered (Sequence.keeps_resizeMade hupkeep hmax hP n fun _ => E.keeps_default hunasked)
  | resizeBy n maker =>
      exact hanswered (Sequence.keeps_resizeMade hupkeep hmax hP n fun k => maker.keeps_call k hunasked)
  | insertCopies position count x =>
      exact hanswered (Sequence.keeps_insertCopies hQ hmax hP position count x)
  | insertAll position xs => exact hanswered (Sequence.keeps_insertAll hQ hmax hP position xs)
  | insertOwn position span => exact hanswered (Sequence.keeps_insertOwn hQ hmax hP position span)
  | insertFeed position feed => exact hanswered (Sequence.keeps_insertFeed hQ hmax hP position feed)
  | extendAll xs => exact hanswered (Sequence.keeps_extendAll hQ hmax hP xs)
  | extendFeed feed => exact hanswered (Sequence.keeps_extendFeed hQ hmax hP feed)
  | eraseSpan span => exact hanswered (Sequence.keeps_eraseSpan hchore span)
  | assignCopies count x =>
      exact hanswered (Sequence.keeps_assignMade hQ count (Handle.mul_le hmax) (fun r _ => hP r)
        fun _ => keeps_pure x)
  | assignAll xs =>
      exact hanswered (Sequence.keeps_assignAll hQ xs (Handle.mul_le hmax) fun r _ => hP r)
  | assignFeed feed => exact hanswered (Sequence.keeps_assignFeed hQ hmax hP feed)
  | get index =>
      apply Sequence.keeps_held _ (s, w) ⟨⟨rfl, hregion⟩, hw⟩
      intro t _
      apply keeps_ofExcept_bind
      exact fun _ _ => keeps_pure _
  | exchange index x => exact hanswered (Sequence.keeps_exchange hchore index x)
  | demand index => exact hanswered (Sequence.keeps_demand index)
  | exchangeDemanded index x => exact hanswered (Sequence.keeps_exchangeDemanded hchore index x)
  | carry x => exact hanswered (Sequence.keeps_carry hchore x)

/-- Shrinking apart, an operation on a bit sequence asks for no more than its handle admits. -/
theorem BitEdit.perform_evolves {s : BitSequence} {w : World σ α} {P : Region → Prop} (e : BitEdit)
    (hQ : ∀ e : Event α, e.Local s.handle.allocator.place most → Q e) (hmax : s.handle.maxBytes ≤ most)
    (hregion : P s.region) (hP : ∀ r, r.capacity ≤ s.maxWords → P r)
    (hshrink : e = .shrink → Word.shape.bytes * Word.wordsFor s.len ≤ most ∧
      ∀ r, r.capacity ≤ Word.wordsFor s.len → P r)
    (hw : w₀.Evolves Q w) : (e.perform (s, w)).Meets (.always (BitSequence.Under s.handle P Q w₀)) := by
  have hupkeep := Event.upkeep_of_local hQ
  have hanswered : ∀ {β : Type} {act : BitAct σ α β} {answer : β → Answer α},
      Keeps (BitSequence.Under s.handle P Q w₀) act →
      ((do return answer (← act) : BitAct σ α (Answer α)) (s, w)).Meets
        (.always (BitSequence.Under s.handle P Q w₀)) :=
    fun hact => answer_meets_always (hact (s, w) ⟨⟨rfl, hregion⟩, hw⟩)
  cases e with
  | shrink =>
      obtain ⟨hle, hsmaller⟩ := hshrink rfl
      exact answer_meets_always (BitSequence.shrink_evolves hupkeep ⟨rfl, hregion⟩ hle hsmaller hw)
  | reserve capacity =>
      exact hanswered (BitSequence.keeps_reserve hupkeep capacity (BitSequence.bytes_le hmax)
        fun r _ => hP r)
  | reserveMore additional => exact hanswered (BitSequence.keeps_reserveMore hupkeep hmax hP additional)
  | push value => exact hanswered (BitSequence.keeps_push hupkeep hmax hP value)
  | pop => exact hanswered BitSequence.keeps_pop
  | insert position value =>
      exact hanswered (BitSequence.keeps_insertCopies hupkeep hmax hP position 1 value)
  | erase index => exact hanswered (BitSequence.keeps_erase index)
  | truncate n => exact hanswered (BitSequence.keeps_truncate n)
  | clear => exact hanswered (BitSequence.keeps_truncate 0)
  | resize n value => exact hanswered (BitSequence.keeps_resize hupkeep hmax hP n value)
  | insertCopies position count value =>
      exact hanswered (BitSequence.keeps_insertCopies hupkeep hmax hP position count value)
  | insertAll position values =>
      exact hanswered (BitSequence.keeps_insertAll hupkeep hmax hP position values)
  | insertFeed position feed => exact hanswered (BitSequence.keeps_insertFeed hQ hmax hP position feed)
  | extendAll values => exact hanswered (BitSequence.keeps_extendAll hupkeep hmax hP values)
  | extendFeed feed => exact hanswered (BitSequence.keeps_extendFeed hQ hmax hP feed)
  | eraseSpan span => exact hanswered (BitSequence.keeps_eraseSpan span)
  | assignCopies count value =>
      exact hanswered (BitSequence.keeps_assignCopies hupkeep hmax hP count value)
  | assignAll values => exact hanswered (BitSequence.keeps_assignAll hupkeep hmax hP values)
  | assignFeed feed => exact hanswered (BitSequence.keeps_assignFeed hQ hmax hP feed)
  | get index => exact hanswered (BitSequence.keeps_get index)
  | set index value => exact hanswered (BitSequence.keeps_set index value)
  | change index changes => exact hanswered (BitSequence.keeps_change index changes)

namespace Container

/-- A container, if there is one, satisfies `P`. -/
def Every (P : Container α → Prop) (slot : Option (Container α)) : Prop := ∀ c, slot = some c → P c

theorem every_some {P : Container α → Prop} {c : Container α} (hc : P c) : Every P (some c) := by
  intro d hd
  cases hd
  exact hc

theorem every_none {P : Container α → Prop} : Every P none := by
  intro d hd
  cases hd

/-- What holds of a container, if there is one, may be weakened. -/
theorem Every.imp {P P' : Container α → Prop} {slot : Option (Container α)} (hslot : Every P slot)
    (h : ∀ c, P c → P' c) : Every P' slot :=
  fun c hc => h c (hslot c hc)

/-- What is known of what was made is known of the container that it is put in. -/
theorem yields_some {γ : Type} {I : World σ α → Prop} {make : Act (World σ α) γ}
    {wrap : γ → Container α} {V : γ → Prop} {P : Container α → Prop} (hmake : Yields I V make)
    (hwrap : ∀ s, V s → P (wrap s)) : Yields I (Every P) (do return some (wrap (← make))) := by
  apply hmake.bind
  exact fun s hs => yields_pure (every_some (hwrap s hs))

/-- The same, where nothing may have been made. -/
theorem yields_map {γ : Type} {I : World σ α → Prop} {make : Act (World σ α) (Option γ)}
    {wrap : γ → Container α} {V : γ → Prop} {P : Container α → Prop}
    (hmake : Yields I (fun slot => ∀ s, slot = some s → V s) make) (hwrap : ∀ s, V s → P (wrap s)) :
    Yields I (Every P) (do return (← make).map wrap) := by
  apply hmake.bind
  intro slot hslot
  apply yields_pure
  cases slot with
  | none => exact every_none
  | some s => exact every_some (hwrap s (hslot s rfl))

/-- What is disposed of only goes back. -/
theorem keeps_dispose {c : Container α}
    (hQ : ∀ e : Event α, e.Upkeep c.handle.allocator.place most → Q e) :
    Keeps (w₀.Evolves Q) (c.dispose E) := by
  cases c with
  | elements s => exact Sequence.keeps_dispose hQ true rfl
  | bits s => exact BitSequence.keeps_dispose hQ rfl

section Copies

variable {c : Container α} (hQ : ∀ e : Event α, e.Local c.handle.allocator.place most → Q e)
  (hc : c.Valid E) (hle : c.contentBytes E ≤ most)

include hQ hc hle

/-- A copy asks for what the contents take. -/
theorem yields_copy :
    Yields (w₀.Evolves Q) (Every (·.NoLarger E c)) (do return some (← c.copy E)) := by
  cases c with
  | elements s =>
      simp only [copy, bind_assoc, pure_bind]
      exact yields_some (Sequence.yields_copy hQ rfl hle) fun t ht =>
        noLarger_elements ht.1 (ht.2.trans_le hc.len_le)
  | bits s =>
      simp only [copy, bind_assoc, pure_bind]
      exact yields_some (BitSequence.yields_copy (Event.upkeep_of_local hQ) rfl hle) fun t ht =>
        noLarger_bits ht.1 (ht.2.trans (Word.wordsFor_le.mpr hc.len_le))

/-- A copy is no larger than the original, and its events are those that are allowed for. -/
theorem yields_copyDemanded :
    Yields (w₀.Evolves Q) (Every (·.NoLarger E c)) (do return some (← c.copyDemanded E)) := by
  cases c with
  | elements s =>
      simp only [copyDemanded, bind_assoc, pure_bind]
      exact yields_some (Sequence.yields_copyDemanded hQ rfl hle) fun t ht =>
        noLarger_elements ht.1 (ht.2.trans_le hc.len_le)
  | bits s =>
      simp only [copyDemanded, bind_assoc, pure_bind]
      exact yields_some (BitSequence.yields_copyDemanded (Event.upkeep_of_local hQ) rfl hle) fun t ht =>
        noLarger_bits ht.1 (ht.2.trans (Word.wordsFor_le.mpr hc.len_le))

end Copies

end Container

namespace Recipe

/-- What is made for sure is made under its handle. -/
theorem yields_some_of {γ : Type} {I : World σ α → Prop} {P : γ → Prop} {make : Act (World σ α) γ}
    (hmake : Yields I P make) :
    Yields I (fun slot => ∀ s, slot = some s → P s) (do return some (← make)) := by
  apply hmake.bind
  intro t ht
  apply yields_pure
  intro s hs
  exact Option.some.inj hs ▸ ht

section Creation

variable {h : Handle} (hQ : ∀ e : Event α, e.Local h.allocator.place most → Q e)
  (hmax : h.maxBytes ≤ most)

include hQ hmax

/-- A new sequence has its handle, and no more room than that admits. -/
theorem yields_create (recipe : Recipe α) :
    Yields (w₀.Evolves Q) (Container.Every fun c => c.handle = h ∧ c.Admitted E)
      (do return (← recipe.create E h).map .elements) := by
  have hupkeep := Event.upkeep_of_local hQ
  have hP : ∀ r : Region, r.capacity ≤ h.maxSize E.bytes → r.capacity ≤ h.maxSize E.bytes := fun _ => id
  have hwrap : ∀ s : Sequence α, s.handle = h ∧ s.region.capacity ≤ h.maxSize E.bytes →
      (Container.elements s).handle = h ∧ (Container.elements s).Admitted E := by
    rintro s ⟨rfl, hadmitted⟩
    exact ⟨rfl, hadmitted⟩
  apply Container.yields_map _ hwrap
  cases recipe with
  | empty =>
      apply yields_pure
      intro s hs
      cases hs
      exact ⟨rfl, Nat.zero_le _⟩
  | withCapacity capacity => exact yields_some_of (Sequence.yields_withCapacity hupkeep hmax hP capacity)
  | replicate count x => exact yields_some_of (Sequence.yields_replicate hQ hmax hP count x)
  | ofList xs => exact yields_some_of (Sequence.yields_ofList hQ hmax hP xs)
  | read hint items => exact Sequence.yields_read hupkeep hmax hP hint items

/-- A bit sequence that is made has the handle given and is admitted by it. -/
theorem yields_createBits (recipe : Recipe Bool) :
    Yields (w₀.Evolves Q) (Container.Every fun c : Container α => c.handle = h ∧ c.Admitted E)
      (do return (← recipe.createBits h).map .bits) := by
  have hupkeep := Event.upkeep_of_local hQ
  have hP : ∀ r : Region, r.capacity ≤ (BitSequence.empty h).maxWords →
      r.capacity ≤ (BitSequence.empty h).maxWords := fun _ => id
  have hwrap : ∀ s : BitSequence, s.handle = h ∧ s.region.capacity ≤ (BitSequence.empty h).maxWords →
      (Container.bits s : Container α).handle = h ∧ (Container.bits s).Admitted E := by
    rintro s ⟨rfl, hadmitted⟩
    exact ⟨rfl, Container.admitted_bits.mpr hadmitted⟩
  apply Container.yields_map _ hwrap
  cases recipe with
  | empty =>
      apply yields_pure
      intro s hs
      cases hs
      exact ⟨rfl, Nat.zero_le _⟩
  | withCapacity capacity =>
      exact yields_some_of (BitSequence.yields_withCapacity hupkeep hmax hP capacity)
  | replicate count value =>
      exact yields_some_of (BitSequence.yields_replicate hupkeep hmax hP count value)
  | ofList values => exact yields_some_of (BitSequence.yields_ofList hupkeep hmax hP values)
  | read hint items => exact BitSequence.yields_read hupkeep hmax hP hint items

end Creation

end Recipe

/-- A move of a drain is a chore. -/
theorem DrainMove.keeps_perform {h : Handle} (hQ : ∀ e : Event α, e.Chore → Q e) (move : DrainMove) :
    Keeps (Drain.Under h Q w₀) move.perform := by
  cases move with
  | next =>
      apply (Drain.keeps_next hQ).bind
      intro x
      exact keeps_held_bind fun _ _ _ => keeps_pure _
  | nextBack =>
      apply (Drain.keeps_nextBack hQ).bind
      intro x
      exact keeps_held_bind fun _ _ _ => keeps_pure _
  | look => exact keeps_held_bind fun _ _ _ => keeps_pure _

/-! ## Workspaces -/

namespace Workspace

variable {ws : Workspace σ α} {a b : Nat} {P : Container α → Prop}

/-- The world went on by events that satisfy `Q`, and all containers satisfy `P`. -/
structure Advances (Q : Event α → Prop) (P : Container α → Prop) (ws ws' : Workspace σ α) : Prop where
  evolves : ws.world.Evolves Q ws'.world
  holds : ∀ a c, ws'.container? a = some c → P c

section Advances

variable (hP : ∀ a c, ws.container? a = some c → P c)

include hP

/-- A workspace advances by staying as it is. -/
theorem advances_refl : Advances Q P ws ws := ⟨.refl _, hP⟩

/-- The world may evolve by itself. -/
theorem advances_world {w : World σ α} (hw : ws.world.Evolves Q w) :
    Advances Q P ws { ws with world := w } :=
  ⟨hw, hP⟩

/-- A register may be set, or cleared, as its container satisfies the property. -/
theorem advances_put {slot : Option (Container α)} {w : World σ α} (ha : a < ws.registers.length)
    (hslot : ∀ c, slot = some c → P c) (hw : ws.world.Evolves Q w) :
    Advances Q P ws { ws.put a slot with world := w } := by
  refine ⟨hw, fun i c hc => ?_⟩
  change (ws.put a slot).container? i = some c at hc
  rw [container?_put slot ha] at hc
  by_cases hi : i = a
  · rw [if_pos hi] at hc
    exact hslot c hc
  · rw [if_neg hi] at hc
    exact hP i c hc

/-- A register may be set to a container that satisfies the property. -/
theorem advances_put_some {c : Container α} {w : World σ α} (ha : a < ws.registers.length) (hc : P c)
    (hw : ws.world.Evolves Q w) :
    Advances Q P ws { ws.put a (some c) with world := w } := by
  apply advances_put hP ha _ hw
  intro d hd
  cases hd
  exact hc

/-- What is made and stored need only satisfy the property, and evolve the world as allowed. -/
theorem store_advances {act : Act (World σ α) (Option (Container α))}
    (h : (act ws.world).Meets
      ⟨fun slot w => (∀ c, slot = some c → P c) ∧ ws.world.Evolves Q w,
        fun _ w => ws.world.Evolves Q w,
        fun _ w => ws.world.Evolves Q w⟩) :
    Advances Q P ws (ws.store a act).2.2 := by
  have hstores := store_spec (a := a) h
  generalize ws.store a act = result at hstores
  cases hstores with
  | vacant _ => exact advances_refl hP
  | stored ha hc => exact advances_put hP ha hc.1 hc.2
  | invalid _ hnone => exact advances_world hP hnone.2
  | refused _ he => exact advances_world hP he
  | faulted _ hf => exact advances_world hP hf

/-- It is enough that the act comes to containers of which `P` holds. -/
theorem made_advances {act : Act (World σ α) (Option (Container α))} {V : Container α → Prop}
    (hact : Yields (ws.world.Evolves Q) (Container.Every V) act) (hV : ∀ c, V c → P c) :
    Advances Q P ws (ws.store a act).2.2 :=
  store_advances hP ((hact ws.world (.refl _)).imp (fun _ _ h => ⟨h.1.imp hV, h.2⟩) (fun _ _ => id)
    (fun _ _ => id))

/-- It is enough that the act leaves a container of which `P` holds. -/
theorem Edited.advances {S : Type} {into : S → Container α} {act : Act (S × World σ α) (Answer α)}
    {result : Response α × Workspace σ α} (h : Edited into ws a act result)
    (hact : ∀ s, ws.container? a = some (into s) → (act (s, ws.world)).Meets (.always fun u =>
      P (into u.1) ∧ ws.world.Evolves Q u.2)) : Advances Q P ws result.2 := by
  cases h with
  | vacant _ => exact advances_refl hP
  | found hc ho =>
      obtain ⟨hholds, hw⟩ := Outcome.meets_always.mp (ho ▸ hact _ hc)
      exact advances_put_some hP (lt_of_container? hc) hholds hw

/-- Two registers may be set at once. -/
theorem advances_put_pair {c d : Container α} {w : World σ α} (ha : a < ws.registers.length)
    (hb : b < ws.registers.length) (hc : P c) (hd : P d)
    (hw : ws.world.Evolves Q w) :
    Advances Q P ws { (ws.put a (some c)).put b (some d) with world := w } := by
  have hput : Advances Q P ws { ws.put a (some c) with world := ws.world } :=
    advances_put_some hP ha hc (.refl _)
  have hb' : b < (ws.put a (some c)).registers.length := by
    rw [put, List.length_set]
    exact hb
  have hputs : Advances Q P (ws.put a (some c)) ((ws.put a (some c)).put b (some d)) :=
    advances_put_some hput.holds hb' hd (.refl _)
  exact ⟨hw, hputs.holds⟩

/-- What a copy does to the workspace follows from what it does to the two containers. -/
theorem copyFrom_advances
    (helements : ∀ s t, ws.pair? a b = some (.elements s, .elements t) →
      (Sequence.copyFrom E t (s, ws.world)).Meets (.always fun u =>
        P (.elements u.1) ∧ ws.world.Evolves Q u.2))
    (hbits : ∀ s t, ws.pair? a b = some (.bits s, .bits t) →
      (BitSequence.copyFrom t (s, ws.world)).Meets (.always fun u =>
        P (.bits u.1) ∧ ws.world.Evolves Q u.2)) :
    Advances Q P ws (ws.perform E (.copyFrom a b)).2.2 := by
  refine copyFrom_cases (P := fun result => Advances Q P ws result.2.2) (advances_refl hP) ?_ ?_
  · intro s t hpair o ho
    have ha := lt_of_container? (pair?_of_some hpair).2.1
    obtain ⟨hholds, hw⟩ : P (.elements o.state.1) ∧ ws.world.Evolves Q o.state.2 :=
      ho ▸ Outcome.meets_always.mp (answer_meets_always (helements s t hpair))
    exact advances_put_some hP ha hholds hw
  · intro s t hpair o ho
    have ha := lt_of_container? (pair?_of_some hpair).2.1
    obtain ⟨hholds, hw⟩ : P (.bits o.state.1) ∧ ws.world.Evolves Q o.state.2 :=
      ho ▸ Outcome.meets_always.mp (answer_meets_always (hbits s t hpair))
    exact advances_put_some hP ha hholds hw

/-- What a move does to the workspace follows from what it does to the two containers. -/
theorem moveFrom_advances
    (helements : ∀ s t, ws.pair? a b = some (.elements s, .elements t) →
      (Sequence.moveFrom E ((s, t), ws.world)).Meets (.always fun u =>
        (P (.elements u.1.1) ∧ P (.elements u.1.2)) ∧ ws.world.Evolves Q u.2))
    (hbits : ∀ s t, ws.pair? a b = some (.bits s, .bits t) →
      (BitSequence.moveFrom ((s, t), ws.world)).Meets (.always fun u =>
        (P (.bits u.1.1) ∧ P (.bits u.1.2)) ∧ ws.world.Evolves Q u.2)) :
    Advances Q P ws (ws.perform E (.moveFrom a b)).2.2 := by
  refine moveFrom_cases (P := fun result => Advances Q P ws result.2.2) (advances_refl hP) ?_ ?_
  · intro s t hpair o ho
    obtain ⟨_, hc, hd⟩ := pair?_of_some hpair
    obtain ⟨⟨hfirst, hsecond⟩, hw⟩ : (P (.elements o.state.1.1) ∧ P (.elements o.state.1.2)) ∧
        ws.world.Evolves Q o.state.2 :=
      ho ▸ Outcome.meets_always.mp (answer_meets_always (helements s t hpair))
    exact advances_put_pair hP (lt_of_container? hc) (lt_of_container? hd) hfirst hsecond hw
  · intro s t hpair o ho
    obtain ⟨_, hc, hd⟩ := pair?_of_some hpair
    obtain ⟨⟨hfirst, hsecond⟩, hw⟩ : (P (.bits o.state.1.1) ∧ P (.bits o.state.1.2)) ∧
        ws.world.Evolves Q o.state.2 :=
      ho ▸ Outcome.meets_always.mp (answer_meets_always (hbits s t hpair))
    exact advances_put_pair hP (lt_of_container? hc) (lt_of_container? hd) hfirst hsecond hw

/-- A container may be used up by an act that evolves the world as allowed. -/
theorem consume_advances {act : Container α → Option (Act (World σ α) (Answer α))}
    (h : ∀ c act', act c = some act' → Keeps (ws.world.Evolves Q) act') :
    Advances Q P ws (ws.consume a act).2 := by
  refine consume_cases (P := fun result => Advances Q P ws result.2) act (advances_refl hP) ?_
  intro c act' hc hact
  have hw := Outcome.meets_always.mp (h c act' hact ws.world (.refl _))
  exact advances_put hP (lt_of_container? hc) nofun hw

end Advances

section Disposal

/-- Giving a container up is upkeep at its own allocator. -/
theorem keeps_discardOne {c : Container α}
    (hQ : ∀ e : Event α, e.Upkeep c.handle.allocator.place most → Q e) :
    Keeps (w₀.Evolves Q) (discardOne E c) := by
  cases c with
  | elements s => exact (Sequence.keeps_dispose hQ false rfl).bind fun _ => keeps_pure _
  | bits s => exact (BitSequence.keeps_dispose hQ rfl).bind fun _ => keeps_pure _

theorem keeps_drainAll {s : Sequence α}
    (hQ : ∀ e : Event α, e.Upkeep s.handle.allocator.place most → Q e) (moves : List DrainMove) :
    Keeps (w₀.Evolves Q) (drainAll E moves s) := by
  have hmoves : Keeps (Drain.Under s.handle Q w₀) (moves.mapM DrainMove.perform) := by
    induction moves with
    | nil => exact keeps_pure _
    | cons move rest ih =>
        rw [List.mapM_cons]
        apply Keeps.bind
        · exact DrainMove.keeps_perform (Event.chore_of_upkeep hQ) move
        · exact fun _ => ih.bind fun _ => keeps_pure _
  have hdisposed : ∀ unwinding (u : Drain α × World σ α), Drain.Under s.handle Q w₀ u →
      (u.1.dispose E unwinding u.2).Meets (.always (w₀.Evolves Q)) := by
    rintro unwinding ⟨d, w⟩ ⟨hd, hw⟩
    have hd : d.handle = s.handle := hd
    exact Drain.keeps_dispose (hd ▸ hQ) unwinding w hw
  intro w hw
  apply bind_meets.mpr
  apply owning_meets.mpr
  apply (hmoves (Drain.of s, w) ⟨rfl, hw⟩).imp
  · intro answers u hu
    apply bind_meets.mpr
    exact hdisposed false u hu
  · exact fun _ u hu => hdisposed false u hu
  · exact fun _ u hu => hdisposed true u hu

variable (hQ : ∀ place, ∀ e : Event α, e.Upkeep place 0 → Q e)

include hQ

/-- A discard makes no container, so the property stays. -/
theorem discard_advances (hP : ∀ a c, ws.container? a = some c → P c) :
    Advances Q P ws (ws.perform E (.discard a)).2.2 := by
  apply consume_advances hP
  intro c act' hact
  cases hact
  exact keeps_discardOne (hQ _)

theorem drain_advances (moves : List DrainMove) (hP : ∀ a c, ws.container? a = some c → P c) :
    Advances Q P ws (ws.perform E (.drain a moves)).2.2 := by
  apply consume_advances hP
  intro c act' hact
  cases c with
  | elements s =>
      cases hact
      exact keeps_drainAll (hQ _) moves
  | bits s => cases hact

/-- Disposing of the container that was replaced only returns what it has. -/
theorem Advances.run {command : Command σ α} (h : Advances Q P ws (ws.perform E command).2.2) :
    Advances Q P ws (ws.run E command).2 := by
  unfold Workspace.run
  generalize ws.perform E command = result at h
  obtain ⟨response, replaced, ws'⟩ := result
  cases replaced with
  | none => exact h
  | some c =>
      have hgone := Outcome.meets_always.mp
        (Container.keeps_dispose (E := E) (c := c) (hQ _) ws'.world h.evolves)
      exact ⟨hgone, h.holds⟩

end Disposal

/-! ## What is so of all handles -/

/-- Containers whose handles satisfy `H`, in a world that is orderly within the limit. -/
structure Bounded (E : Element σ α) (limit : Nat) (H : Handle → Prop) (ws : Workspace σ α) : Prop where
  sound : Sound E 0 ws
  orderly : ws.world.Orderly limit
  handles : ∀ a c, ws.container? a = some c → H c.handle

variable {limit : Nat} {H : Handle → Prop} {c : Container α}

/-- What a container occupies was asked for once. -/
theorem Bounded.bytes_le (hb : Bounded E limit H ws) (hc : ws.container? a = some c) :
    c.bytes E ≤ limit := by
  obtain ⟨hvalid, howns⟩ := hb.sound.parts hc
  cases c with
  | elements s =>
      have hassets : Container.assets E (.elements s)
          = s.region.assets E.toShape + Asset.elements s.items := add_comm _ _
      rw [hassets, add_assoc] at howns
      exact hvalid.region.bytes_le hb.orderly.sized howns
  | bits s => exact hvalid.region.bytes_le hb.orderly.sized howns

/-- A bounded workspace has no content above the limit. -/
theorem Bounded.contentBytes_le (hb : Bounded E limit H ws) (hc : ws.container? a = some c) :
    c.contentBytes E ≤ limit :=
  Nat.le_trans (Container.contentBytes_le (hb.sound.valid a c hc)) (hb.bytes_le hc)

section Step

variable (hlimit : ∀ h, H h → h.maxBytes ≤ limit) (hb : Bounded E limit H ws)

include hlimit hb

/-- An operation on a sequence stays within the limit of its handle. -/
theorem Bounded.edit_advances (a : Nat) (e : Edit α) :
    Advances (Event.Sized fun _ => limit) (H ·.handle) ws
      (ws.withSequence a (e.perform E)).2 := by
  apply (edited_withSequence _).advances hb.handles
  intro s hs
  have hmax : s.handle.maxBytes ≤ limit := hlimit _ (hb.handles a _ hs)
  have hle : E.bytes * s.len ≤ limit := hb.contentBytes_le hs
  have hdone := e.perform_evolves (E := E) (P := fun _ => True) (Event.sized_of_within _) hmax
    trivial (fun _ _ => trivial) (fun _ => ⟨hle, fun _ _ => trivial⟩) (.refl ws.world)
  exact hdone.always_imp fun u hu =>
    ⟨(congrArg H hu.1.1).mpr (hb.handles a _ hs), hu.2⟩

theorem Bounded.editBits_advances (a : Nat) (e : BitEdit) :
    Advances (Event.Sized fun _ => limit) (H ·.handle) ws
      (ws.withBits a e.perform).2 := by
  apply (edited_withBits _).advances hb.handles
  intro s hs
  have hmax : s.handle.maxBytes ≤ limit := hlimit _ (hb.handles a _ hs)
  have hle : Word.shape.bytes * Word.wordsFor s.len ≤ limit := hb.contentBytes_le hs
  have hdone := e.perform_evolves (P := fun _ => True) (Event.sized_of_within _) hmax
    trivial (fun _ _ => trivial) (fun _ => ⟨hle, fun _ _ => trivial⟩) (.refl ws.world)
  exact hdone.always_imp fun u hu =>
    ⟨(congrArg H hu.1.1).mpr (hb.handles a _ hs), hu.2⟩

omit hlimit in
/-- A copy has the handle of one of the two containers, and its requests are within the limit. -/
theorem Bounded.copyFrom_advances (a b : Nat) :
    Advances (Event.Sized fun _ => limit) (H ·.handle) ws
      (ws.perform E (.copyFrom a b)).2.2 := by
  -- The one handle or the other is left.
  have hleft : ∀ {c d : Container α}, ws.container? a = some c → ws.container? b = some d →
      ∀ h : Handle, h = c.handle ∨ h = d.handle → H h := by
    rintro c d hc hd _ (rfl | rfl)
    · exact hb.handles a c hc
    · exact hb.handles b d hd
  have hQ := fun place => @Event.sized_of_within α limit place
  have hQ' := fun place => Event.upkeep_of_local (hQ place)
  have hgone := @Event.sized_of_returning α fun _ => limit
  apply Workspace.copyFrom_advances hb.handles
  · intro s t hpair
    obtain ⟨_, hs, ht⟩ := pair?_of_some hpair
    have hle : E.bytes * t.len ≤ limit := hb.contentBytes_le ht
    by_cases hforeign : s.handle.Foreign t.handle
    · have hcopied := Sequence.copyFrom_evolves_foreign (E := E) hforeign (hgone _) (hQ _) hle
        (.refl ws.world)
      exact hcopied.always_imp fun u hu =>
        ⟨hleft hs ht u.1.handle (hu.1.imp And.left And.left), hu.2⟩
    · have hcopied := Sequence.copyFrom_evolves_own (E := E) (P := fun _ => True) hforeign (hQ _) trivial
        (fun _ => hle) (fun _ _ _ => trivial) (.refl ws.world)
      exact hcopied.always_imp fun u hu =>
        ⟨hleft hs ht u.1.handle (hu.1.1.imp_right And.right), hu.2⟩
  · intro s t hpair
    obtain ⟨_, hs, ht⟩ := pair?_of_some hpair
    have hle : Word.shape.bytes * Word.wordsFor t.len ≤ limit := hb.contentBytes_le ht
    by_cases hforeign : s.handle.Foreign t.handle
    · have hcopied := BitSequence.copyFrom_evolves_foreign hforeign (hgone _) (hQ' _) hle
        (.refl ws.world)
      exact hcopied.always_imp fun u hu =>
        ⟨hleft hs ht u.1.handle (hu.1.imp And.left And.left), hu.2⟩
    · have hcopied := BitSequence.copyFrom_evolves_own (P := fun _ => True) hforeign (hQ' _) trivial
        (fun _ => hle) (fun _ _ _ => trivial) (.refl ws.world)
      exact hcopied.always_imp fun u hu =>
        ⟨hleft hs ht u.1.handle (hu.1.1.imp_right And.right), hu.2⟩

omit hlimit in
/-- A carried block is as large as one that is there already. -/
theorem Bounded.moveFrom_advances (a b : Nat) :
    Advances (Event.Sized fun _ => limit) (H ·.handle) ws
      (ws.perform E (.moveFrom a b)).2.2 := by
  -- Both keep their handles.
  have hkept : ∀ {c d : Container α}, ws.container? a = some c → ws.container? b = some d →
      ∀ h h' : Handle, h = c.handle → h' = d.handle → H h ∧ H h' := by
    rintro c d hc hd _ _ rfl rfl
    exact ⟨hb.handles a c hc, hb.handles b d hd⟩
  have hQ := fun place => Event.upkeep_of_local (@Event.sized_of_within α limit place)
  apply Workspace.moveFrom_advances hb.handles
  · intro s t hpair
    obtain ⟨_, hs, ht⟩ := pair?_of_some hpair
    have hle : E.bytes * t.len ≤ limit := hb.contentBytes_le ht
    have hmoved := Sequence.moveFrom_evolves (s := s) (P := fun _ => True) (hQ _) trivial hle
      (fun _ => trivial) (fun _ _ _ => trivial) (.refl ws.world)
    exact hmoved.always_imp fun _ hu => ⟨hkept hs ht _ _ hu.1.1.1 hu.2.1, hu.1.2⟩
  · intro s t hpair
    obtain ⟨_, hs, ht⟩ := pair?_of_some hpair
    have hle : Word.shape.bytes * Word.wordsFor t.len ≤ limit := hb.contentBytes_le ht
    have hmoved := BitSequence.moveFrom_evolves (s := s) (P := fun _ => True) (hQ _) trivial hle
      (fun _ => trivial) (fun _ _ _ => trivial) (.refl ws.world)
    exact hmoved.always_imp fun _ hu => ⟨hkept hs ht _ _ hu.1.1.1 hu.2.1, hu.1.2⟩

/-- **Step.**  As long as the handle that it brings in satisfies `H` and hence admits no more than the limit, a
command asks for no more, and leaves handles that satisfy `H`. -/
theorem Bounded.perform_advances (command : Command σ α)
    (hcommand : ∀ h, command.handle? = some h → H h) :
    Advances (Event.Sized fun _ => limit) (H ·.handle) ws
      (ws.perform E command).2.2 := by
  have hQ := @Event.sized_of_within α limit
  cases command with
  | create a recipe handle =>
      have hbrought := hcommand handle rfl
      exact made_advances hb.handles (recipe.yields_create (hQ _) (hlimit _ hbrought))
        fun c hc => hc.1.symm ▸ hbrought
  | createBits a recipe handle =>
      have hbrought := hcommand handle rfl
      exact made_advances hb.handles (recipe.yields_createBits (E := E) (hQ _) (hlimit _ hbrought))
        fun c hc => hc.1.symm ▸ hbrought
  | edit a e => exact hb.edit_advances hlimit a e
  | editBits a e => exact hb.editBits_advances hlimit a e
  | copy a b =>
      refine copy_cases (P := fun result => Advances _ _ ws result.2.2) (advances_refl hb.handles) fun c hc => ?_
      exact made_advances hb.handles
        (Container.yields_copy (hQ _) (hb.sound.valid a c hc) (hb.contentBytes_le hc))
        fun d hd => hd.handle.symm ▸ hb.handles a c hc
  | copyDemanded a b =>
      refine copyDemanded_cases (P := fun result => Advances _ _ ws result.2.2) (advances_refl hb.handles)
        fun c hc => ?_
      exact made_advances hb.handles
        (Container.yields_copyDemanded (hQ _) (hb.sound.valid a c hc) (hb.contentBytes_le hc))
        fun d hd => hd.handle.symm ▸ hb.handles a c hc
  | copyFrom a b => exact hb.copyFrom_advances a b
  | moveFrom a b => exact hb.moveFrom_advances a b
  | discard a => exact discard_advances Event.sized_of_returning hb.handles
  | drain a moves => exact drain_advances Event.sized_of_returning moves hb.handles
  | setPolicy place policy => exact advances_world hb.handles (.of_eq rfl rfl)
  | setCode code => exact advances_world hb.handles (.of_eq rfl rfl)

end Step

/-- **Step.**  No command with a handle within the limit makes the workspace exceed it. -/
theorem Bounded.run (hb : Bounded E limit H ws) (hlimit : ∀ h, H h → h.maxBytes ≤ limit)
    (command : Command σ α)
    (hcommand : ∀ h, command.handle? = some h → H h) :
    Bounded E limit H (ws.run E command).2 :=
  have hadvances := (hb.perform_advances hlimit command hcommand).run Event.sized_of_returning
  ⟨run_sound command hb.sound, hb.orderly.evolves hadvances.evolves, hadvances.holds⟩

/-- **Run.**  What is so of the handles that a program brings in is so of those that it leaves. -/
theorem Bounded.runAll (hb : Bounded E limit H ws) (hlimit : ∀ h, H h → h.maxBytes ≤ limit)
    (commands : List (Command σ α))
    (hcommands : ∀ command ∈ commands, ∀ h, command.handle? = some h → H h) :
    Bounded E limit H (ws.runAll E commands).2 := by
  induction commands generalizing ws with
  | nil => exact hb
  | cons command rest ih =>
      exact ih (hb.run hlimit command (hcommands command List.mem_cons_self))
        fun next hnext => hcommands next (List.mem_cons_of_mem _ hnext)

/-- At first every register is empty. -/
theorem container?_initial (registers : Nat) (accounts : List Account) (code : σ) (a : Nat) :
    (initial registers accounts code : Workspace σ α).container? a = none := by
  rw [container?, initial, List.getElem?_replicate]
  split <;> rfl

/-- An empty workspace is within every limit. -/
theorem bounded_initial (registers : Nat) (accounts : List Account) (code : σ) :
    Bounded E limit H (initial registers accounts code : Workspace σ α) := by
  refine ⟨sound_initial registers accounts code, ⟨fun e he => ?_, rfl⟩, fun a c hc => ?_⟩
  · cases he
  · rw [container?_initial] at hc
    cases hc

end Workspace

end Growable
