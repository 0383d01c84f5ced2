import Growable.Proofs.Demand

/-!
# Items that come one by one

An operation that consumes an iterator does not know how many items there will be.  It puts them in one by
one, each with a demand of its own (`Feed.each`, `Storage.Appends`).  All the same, the number of items that
come decides in the end what the operation can come to (`Demand.Governs`):

* it is done only if the handle admits so many;
* it is refused for lack of capacity only if the handle does not, and otherwise only after an allocator
  declined;
* if there is room for all of them, the region stays, and no allocator is involved.

So much is true of any operation that is answered as it demands (`Demand.Answered.governs`).
-/

namespace Growable

open Act

variable {σ α β δ γ S : Type}

namespace World

variable {w w₁ w₂ : World σ α} {Q : Event α → Prop}

/-- An allocator declined a request since. -/
def Declines (w w' : World σ α) : Prop :=
  ∃ es place bytes, w'.trace.toList = w.trace.toList ++ es ∧ .declined place bytes ∈ es

/-- A request declined later is declined in the whole. -/
theorem Declines.after (hw : w.Evolves Q w₁) (h : w₁.Declines w₂) : w.Declines w₂ := by
  obtain ⟨es, _, hes, _⟩ := hw
  obtain ⟨es', place, bytes, hes', hmem⟩ := h
  exact ⟨es ++ es', place, bytes, by rw [hes', hes, List.append_assoc], List.mem_append_right es hmem⟩

/-- A request declined earlier is declined in the whole. -/
theorem Declines.before (h : w.Declines w₁) (hw : w₁.Evolves Q w₂) : w.Declines w₂ := by
  obtain ⟨es, place, bytes, hes, hmem⟩ := h
  obtain ⟨es', _, hes', _⟩ := hw
  exact ⟨es ++ es', place, bytes, by rw [hes', hes, List.append_assoc], List.mem_append_left es' hmem⟩

/-- A rejection whose request was declined has that event in its trace. -/
theorem Rejected.declines {given : Option α} {place bytes : Nat} {faulted : Bool}
    (h : w.Rejected given [.declined place bytes] faulted w₁) : w.Declines w₁ := by
  obtain ⟨-, -, before, -, hw₁⟩ := h
  refine ⟨before ++ [.declined place bytes] ++ given.toList.map (.dropped · faulted), place, bytes, ?_, ?_⟩
  · rw [hw₁, List.append_assoc, List.append_assoc, List.append_assoc]
  · simp

end World

/-! ## What a demand decides -/

variable (K : Storage S)

/-- The claim that an operation is done only if the handle admits `n` items, and refused only if it does not,
or if an allocator declined. -/
def Post.admitting (n : Nat) (s : S) (w : World σ α) : Post (S × World σ α) β :=
  ⟨fun _ _ => n ≤ K.maxSize s,
    fun e u => e = .capacityExceeded ∧ K.maxSize s < n ∨ e = .allocationFailure ∧ w.Declines u.2,
    fun _ _ => True⟩

/-- The demand decides what an operation on `s` can come to. -/
structure Demand.Governs (d : Demand) (given : Option α) (s : S) (w : World σ α)
    (o : Outcome (S × World σ α) β) : Prop where
  invalid : ∀ e, d.bounds = .error e → o.Meets (.rejected e [] given s w)
  admits : K.slot.Lawful → d.bounds = .ok () → o.Meets (.admitting K d.required s w)
  stays : d.bounds = .ok () → d.required ≤ K.capacity s → o.Meets (.settled K s w)

variable {K} {s : S} {w : World σ α} {d : Demand} {given : Option α}

/-- An act that does nothing beyond its demand is governed by it. -/
theorem Demand.Answered.governs {o : Outcome (S × World σ α) β} (h : d.Answered K given s w o) :
    d.Governs K given s w o where
  invalid := h.invalid
  admits hslot hbounds := by
    by_cases hmax : K.maxSize s < d.required
    · exact (h.exceeding hbounds hmax).imp (fun _ _ => False.elim) (fun _ _ hu => .inl ⟨hu.1, hmax⟩)
        (fun _ _ _ => trivial)
    · have hadmitted := Nat.le_of_not_lt hmax
      by_cases hroom : d.required ≤ K.capacity s
      · exact (h.stays hbounds hroom).imp (fun _ _ _ => hadmitted) (fun _ _ => False.elim)
          (fun _ _ _ => trivial)
      · obtain ⟨n, _, hgrown⟩ := h.grows hslot hbounds (Nat.lt_of_not_le hroom) hadmitted
        exact hgrown.imp (fun _ _ _ => hadmitted) (fun _ _ hu => .inr ⟨hu.2.1, hu.2.2.2.declines⟩)
          (fun _ _ _ => trivial)
  stays := h.stays

/-- Where the bounds are not valid, it does not matter how much is required. -/
theorem Demand.Governs.of_eq {K : Storage S} {d d' : Demand} {given : Option α} {s : S}
    {o : Outcome (S × World σ α) β} (h : d.Governs K given s w o) (hbounds : d'.bounds = d.bounds)
    (hrequired : d.bounds = .ok () → d'.required = d.required) : d'.Governs K given s w o where
  invalid e he := h.invalid e (hbounds.symm.trans he)
  admits hslot hvalid := by
    rw [hbounds] at hvalid
    rw [hrequired hvalid]
    exact h.admits hslot hvalid
  stays hvalid hroom := by
    rw [hbounds] at hvalid
    exact h.stays hvalid ((hrequired hvalid).symm.trans_le hroom)

/-- What is done within the room that there is. -/
theorem Demand.governs_of_settled {required : Nat} {ahead : Bool} (hroom : required ≤ K.maxSize s)
    {o : Outcome (S × World σ α) β} (ho : o.Meets (.settled K s w)) :
    Demand.Governs K ⟨.ok (), required, ahead⟩ given s w o where
  invalid := nofun
  admits _ _ := ho.imp (fun _ _ _ => hroom) (fun _ _ => False.elim) (fun _ _ _ => trivial)
  stays _ _ := ho

section Acts

variable {act : Act (S × World σ α) β} {next : β → Act (S × World σ α) δ} {required : Nat} {ahead : Bool}

/-- What settles may follow. -/
theorem Demand.Governs.bind (h : d.Governs K given s w (act (s, w))) (hnext : ∀ b, Settles K (next b)) :
    d.Governs K given s w ((act >>= next) (s, w)) where
  invalid e he := Post.rejected_bind (h.invalid e he)
  admits hslot hbounds := by
    apply bind_meets.mpr
    apply (h.admits hslot hbounds).imp
    · rintro b ⟨t, w₁⟩ hadmitted
      exact (hnext b t w₁).imp (fun _ _ _ => hadmitted) (fun _ _ => False.elim) (fun _ _ _ => trivial)
    · exact fun _ _ => id
    · exact fun _ _ => id
  stays hbounds hroom := Post.settled_bind (h.stays hbounds hroom) hnext

/-- What is answered in the end makes no difference. -/
theorem Demand.Governs.answer {answer : β → δ} (h : d.Governs K given s w (act (s, w))) :
    d.Governs K given s w ((do return answer (← act) : Act (S × World σ α) δ) (s, w)) :=
  h.bind fun b => settles_pure K (answer b)

/-- An act that demands less goes before the rest. -/
theorem Demand.Governs.step {Q : Event α → Prop} {first : Nat} (hfirst : first ≤ required)
    (hact : Demand.Governs K ⟨.ok (), first, ahead⟩ given s w (act (s, w)))
    (hnext : (act (s, w)).Meets ⟨fun b u => K.maxSize u.1 = K.maxSize s ∧ w.Evolves Q u.2 ∧
      Demand.Governs K ⟨.ok (), required, ahead⟩ none u.1 u.2 (next b u), fun _ _ => True, fun _ _ => True⟩) :
    Demand.Governs K ⟨.ok (), required, ahead⟩ none s w ((act >>= next) (s, w)) where
  invalid := nofun
  admits hslot hbounds := by
    apply bind_meets.mpr
    apply ((hact.admits hslot rfl).and hnext).imp
    · rintro b ⟨t, w₁⟩ ⟨_, hmax, hw₁, hrest⟩
      apply (hrest.admits hslot rfl).imp
      · exact fun _ _ hadmitted => hadmitted.trans_eq hmax
      · exact fun _ _ hu => hu.imp (fun he => ⟨he.1, hmax.symm.trans_lt he.2⟩)
          fun he => ⟨he.1, he.2.after hw₁⟩
      · exact fun _ _ => id
    · exact fun _ _ hu => hu.1.imp_left fun he => ⟨he.1, he.2.trans_le hfirst⟩
    · exact fun _ _ => And.left
  stays hbounds hroom := by
    apply bind_meets.mpr
    apply ((hact.stays rfl (hfirst.trans hroom)).and hnext).imp
    · rintro b ⟨t, w₁⟩ ⟨⟨hregion, hw₁⟩, _, _, hrest⟩
      have hcapacity : K.capacity t = K.capacity s := K.capacity_eq t s hregion
      apply (hrest.stays rfl (hroom.trans_eq hcapacity.symm)).imp
      · exact fun _ _ hu => ⟨hu.1.trans hregion, hw₁.trans hu.2⟩
      · exact fun _ _ => id
      · exact fun _ _ hu => ⟨hu.1.trans hregion, hw₁.trans hu.2⟩
    · exact fun _ _ => And.left
    · exact fun _ _ => And.left

/-- What makes do with the room that there is goes before the rest. -/
theorem Demand.Governs.after {Q : Event α → Prop} (hact : (act (s, w)).Meets (.settled K s w))
    (hnext : (act (s, w)).Meets ⟨fun b u => K.maxSize u.1 = K.maxSize s ∧ w.Evolves Q u.2 ∧
      Demand.Governs K ⟨.ok (), required, ahead⟩ none u.1 u.2 (next b u), fun _ _ => True, fun _ _ => True⟩) :
    Demand.Governs K ⟨.ok (), required, ahead⟩ none s w ((act >>= next) (s, w)) :=
  have hgoverned : Demand.Governs K ⟨.ok (), 0, ahead⟩ none s w (act (s, w)) :=
    governs_of_settled (Nat.zero_le _) hact
  hgoverned.step (Nat.zero_le _) hnext

/-- What does not involve an allocator is recorded first. -/
theorem Demand.Governs.record {e : Event α} (he : e.place? = none)
    {next : Act (S × World σ α) δ}
    (h : Demand.Governs K ⟨.ok (), required, ahead⟩ none s { w with trace := w.trace.push e }
      (next (s, { w with trace := w.trace.push e }))) :
    Demand.Governs K ⟨.ok (), required, ahead⟩ none s w
      ((do inWorld (World.record e); next : Act (S × World σ α) δ) (s, w)) := by
  have hrecorded : w.Evolves (fun e => e.place? = none) { w with trace := w.trace.push e } :=
    .push (n := 0) e he rfl rfl (by rw [Event.grants_of_unasked he]; rfl)
  exact .after ⟨rfl, hrecorded⟩ ⟨rfl, hrecorded, h⟩

/-- What is done when an item was refused does not need memory. -/
theorem Demand.Governs.onRefusal {cleanup : Act (S × World σ α) Unit}
    (h : Demand.Governs K ⟨.ok (), required, ahead⟩ none s w (act (s, w))) (hcleanup : Settles K cleanup) :
    Demand.Governs K ⟨.ok (), required, ahead⟩ none s w (act.onRefusal cleanup (s, w)) where
  invalid := nofun
  admits hslot hbounds := by
    apply onRefusal_meets.mpr
    refine (h.admits hslot hbounds).imp (fun _ _ => id) ?_ (fun _ _ => id)
    rintro e ⟨t, w₁⟩ hrefused
    apply (hcleanup t w₁).imp
    · exact fun _ _ hu => hrefused.imp_right fun he => ⟨he.1, he.2.before hu.2⟩
    · exact fun _ _ => False.elim
    · exact fun _ _ _ => trivial
  stays hbounds hroom :=
    onRefusal_meets.mpr ((h.stays hbounds hroom).imp (fun _ _ => id) (fun _ _ => False.elim) (fun _ _ => id))

/-- The bounds are checked before anything else is done. -/
theorem Demand.Governs.checked {bounds : Except SequenceError Unit}
    (hact : bounds = .ok () → Demand.Governs K ⟨.ok (), required, ahead⟩ none s w (act (s, w))) :
    Demand.Governs K ⟨bounds, required, ahead⟩ none s w
      ((do ofExcept bounds; act : Act (S × World σ α) β) (s, w)) := by
  cases bounds with
  | ok => exact hact rfl
  | error e =>
      refine ⟨fun e' he => ?_, nofun, nofun⟩
      cases he
      exact Post.rejected_refuse e s w

end Acts

/-! ## Putting items in one by one -/

/-- Puts what an iterator yields in, one by one. -/
def Feed.each (push : γ → Act (S × World σ α) Unit) : Feed γ → Act (S × World σ α) Unit
  | finish => inWorld (World.record .ended)
  | raise message => do
    inWorld (World.record .feedFaulted)
    fault (.raised message)
  | yield x rest => do
    inWorld (World.record .yielded)
    push x
    each push rest

/-- As long as `I` holds, `push` puts one more item in, and is answered as one more item demands. -/
structure Storage.Appends (K : Storage S) (len : S → Nat) (I : S × World σ α → Prop)
    (given : γ → Option α) (push : γ → Act (S × World σ α) Unit) : Prop where
  len_le : ∀ u, I u → len u.1 ≤ K.maxSize u.1
  yielded : ∀ s w, I (s, w) → I (s, { w with trace := w.trace.push .yielded })
  answered : ∀ x s w, I (s, w) →
    Demand.Answered K ⟨.ok (), len s + 1, true⟩ (given x) s w (push x (s, w))
  lengthens : ∀ x s w, I (s, w) → (push x (s, w)).Meets
    ⟨fun _ u => (I u ∧ len u.1 = len s + 1 ∧ K.maxSize u.1 = K.maxSize s) ∧
      w.Evolves (fun _ => True) u.2, fun _ _ => True, fun _ _ => True⟩

/-- The number of items that come decides what becomes of putting them in one by one. -/
theorem Storage.Appends.governs {len : S → Nat} {I : S × World σ α → Prop} {given : γ → Option α}
    {push : γ → Act (S × World σ α) Unit} (h : K.Appends len I given push) (feed : Feed γ) {s : S}
    {w : World σ α} (hs : I (s, w)) :
    Demand.Governs K ⟨.ok (), len s + feed.members.length, true⟩ none s w (feed.each push (s, w)) := by
  induction feed generalizing s w with
  | finish =>
      have hended : w.Evolves (fun e => e.place? = none) { w with trace := w.trace.push .ended } :=
        .push (n := 0) .ended rfl rfl rfl rfl
      exact Demand.governs_of_settled (h.len_le _ hs) ⟨rfl, hended⟩
  | raise message =>
      have hfaulted : w.Evolves (fun e => e.place? = none)
          { w with trace := w.trace.push .feedFaulted } := .push (n := 0) .feedFaulted rfl rfl rfl rfl
      exact Demand.governs_of_settled (h.len_le _ hs) ⟨rfl, hfaulted⟩
  | yield x rest ih =>
      have hs₁ := h.yielded s w hs
      have hlength : len s + (Feed.yield x rest).members.length = len s + 1 + rest.members.length := by
        rw [Feed.members, List.length_cons, Nat.add_assoc, Nat.add_comm 1]
      rw [hlength]
      apply Demand.Governs.record rfl
      apply (h.answered x s _ hs₁).governs.step (Nat.le_add_right _ _)
      apply (h.lengthens x s _ hs₁).imp
      · rintro _ ⟨t, w₂⟩ ⟨⟨ht, hlen, hmax⟩, hw₂⟩
        exact ⟨hmax, hw₂, hlen ▸ ih ht⟩
      · exact fun _ _ => id
      · exact fun _ _ => id

end Growable
