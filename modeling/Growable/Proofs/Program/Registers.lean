import Growable.Program.Workspace
import Growable.Proofs.BitSequence.Assignment
import Growable.Proofs.Sequence.Transfer

/-!
# The registers of a workspace and what they answer for

A container answers for its elements and its memory, and a workspace for all its containers.  A workspace
is `Sound` when each container is valid and the assets of all of them, and of a container that is still
to be disposed of, are in custody: no more and no less.

* `Workspace.Sound.parts`, `Workspace.Sound.put` — a container is taken out of its register, and another
  one takes its place;
* `Workspace.store_spec`, `Workspace.consume_of_some` — what a command can come to in one register;
* `Workspace.Edited` — what an operation on a container comes to, of whichever kind that is.
-/

namespace Growable

variable {σ α : Type} {E : Element σ α}

namespace Container

/-- What a container answers for. -/
def assets (E : Element σ α) : Container α → Multiset (Asset α)
  | elements s => s.assets E
  | bits s => s.assets

/-- The container is valid, of whichever kind it is. -/
def Valid (E : Element σ α) : Container α → Prop
  | elements s => s.Valid E
  | bits s => s.Valid

/-- The elements in a container. -/
def items : Container α → List α
  | elements s => s.items
  | bits _ => []

/-- The elements among the assets are those the container has. -/
theorem filterMap_assets (c : Container α) :
    (c.assets E).filterMap Asset.element? = (c.items : Multiset α) := by
  have hregion : ∀ (shape : Shape) (r : Region),
      (r.assets shape : Multiset (Asset α)).filterMap Asset.element? = 0 := by
    intro shape r
    unfold Region.assets
    cases r.block <;> rfl
  cases c with
  | elements s =>
      rw [assets, Sequence.assets, Multiset.filterMap_add, Asset.filterMap_element?_elements,
        hregion, add_zero]
      rfl
  | bits s => exact hregion _ _

end Container

namespace Workspace

variable {ws : Workspace σ α} {a b : Nat} {c : Container α} {m : Multiset (Asset α)}

/-- What the container in a register answers for, if there is one. -/
def slotAssets (E : Element σ α) (slot : Option (Container α)) : Multiset (Asset α) :=
  slot.elim 0 (Container.assets E)

/-- What all containers answer for. -/
def assets (E : Element σ α) (ws : Workspace σ α) : Multiset (Asset α) :=
  (ws.registers.map (slotAssets E)).sum

/-- Every container is valid, and the assets of all of them are in custody, beside the assets `m`. -/
structure Sound (E : Element σ α) (m : Multiset (Asset α)) (ws : Workspace σ α) : Prop where
  valid : ∀ a c, ws.container? a = some c → c.Valid E
  owns : ws.world.Owns (ws.assets E + m)

/-! ## Putting containers into registers -/

/-- A container is in one of the registers. -/
theorem lt_of_container? (h : ws.container? a = some c) : a < ws.registers.length := by
  by_contra hfar
  rw [container?, List.getElem?_eq_none (Nat.le_of_not_lt hfar)] at h
  cases h

/-- Setting a register changes no other one. -/
theorem container?_put (slot : Option (Container α)) (ha : a < ws.registers.length) (b : Nat) :
    (ws.put a slot).container? b = if b = a then slot else ws.container? b := by
  unfold container? put
  dsimp only
  by_cases hb : b = a
  · subst hb
    rw [List.getElem?_set_self ha, if_pos rfl]
    rfl
  · rw [List.getElem?_set_ne (Ne.symm hb), if_neg hb]

section Sum

variable {M : Type} [AddCommMonoid M] {f : Option (Container α) → M} (hf : f none = 0)

include hf

/-- What is summed up over the registers is what one of them has, and what all others have. -/
theorem sum_put (slot : Option (Container α)) (ha : a < ws.registers.length) :
    ((ws.put a slot).registers.map f).sum = f slot + ((ws.put a none).registers.map f).sum := by
  unfold put
  dsimp only
  generalize ws.registers = registers at ha
  induction registers generalizing a with
  | nil => cases ha
  | cons first rest ih =>
      cases a with
      | zero => simp [hf]
      | succ a =>
          have hrest := ih (Nat.lt_of_succ_lt_succ ha)
          simp only [List.set_cons_succ, List.map_cons, List.sum_cons, hrest]
          abel

/-- A sum over the registers is split into two of them and the rest. -/
theorem sum_put_pair (x y : Option (Container α)) (hne : a ≠ b) (ha : a < ws.registers.length)
    (hb : b < ws.registers.length) :
    (((ws.put a x).put b y).registers.map f).sum
      = f x + (f y + (((ws.put a none).put b none).registers.map f).sum) := by
  have hcomm : ∀ z : Option (Container α), (ws.put a z).put b none = (ws.put b none).put a z := by
    intro z
    unfold put
    rw [List.set_comm _ _ hne]
  have ha' : a < (ws.put b none).registers.length := ha.trans_eq List.length_set.symm
  have hb' : b < (ws.put a x).registers.length := hb.trans_eq List.length_set.symm
  rw [sum_put hf y hb', hcomm x, sum_put hf x ha', hcomm none]
  abel

end Sum

/-- The assets of a workspace are those in one register, and those in all others. -/
theorem assets_put (slot : Option (Container α)) (ha : a < ws.registers.length) :
    (ws.put a slot).assets E = slotAssets E slot + (ws.put a none).assets E :=
  sum_put rfl slot ha

/-- Putting back what a register has changes nothing, also if that is nothing. -/
theorem put_container? (ha : a < ws.registers.length) : ws.put a (ws.container? a) = ws := by
  have hsame : ws.container? a = ws.registers[a] := by
    rw [container?, List.getElem?_eq_getElem ha]
    rfl
  rw [put, hsame, List.set_getElem_self]

/-- Putting a container back changes nothing. -/
theorem put_same (hc : ws.container? a = some c) : ws.put a (some c) = ws := by
  rw [← hc]
  exact put_container? (lt_of_container? hc)

/-- A container that is taken out of its register. -/
theorem Sound.parts (hs : Sound E m ws) (h : ws.container? a = some c) :
    c.Valid E ∧ ws.world.Owns (c.assets E + ((ws.put a none).assets E + m)) := by
  have ha := lt_of_container? h
  refine ⟨hs.valid a c h, hs.owns.of_eq ?_⟩
  have hput := assets_put (E := E) (ws.container? a) ha
  rw [put_container? ha, h] at hput
  rw [hput, add_assoc]
  rfl

/-- A container that takes the place of another one in its register. -/
theorem Sound.put {slot : Option (Container α)} {w : World σ α} {m' : Multiset (Asset α)}
    (hs : Sound E m ws) (ha : a < ws.registers.length) (hslot : ∀ c, slot = some c → c.Valid E)
    (h : w.Owns (slotAssets E slot + ((ws.put a none).assets E + m'))) :
    Sound E m' { ws.put a slot with world := w } := by
  constructor
  · intro b c hc
    change (ws.put a slot).container? b = some c at hc
    rw [container?_put slot ha] at hc
    by_cases hb : b = a
    · rw [if_pos hb] at hc
      exact hslot c hc
    · rw [if_neg hb] at hc
      exact hs.valid b c hc
  · apply h.of_eq
    change _ = (ws.put a slot).assets E + m'
    rw [assets_put slot ha, add_assoc]

/-- Two containers that are taken out of their registers. -/
theorem Sound.parts_pair {d : Container α} (hs : Sound E m ws) (hne : a ≠ b)
    (hc : ws.container? a = some c) (hd : ws.container? b = some d) :
    c.Valid E ∧ d.Valid E ∧ ws.world.Owns (c.assets E +
      (d.assets E + (((ws.put a none).put b none).assets E + m))) := by
  have ha := lt_of_container? hc
  obtain ⟨hvalid, howns⟩ := hs.parts hc
  have hrest : Sound E (c.assets E + m) (ws.put a none) := by
    apply hs.put ha
    · intro c hc
      cases hc
    · apply howns.of_eq
      rw [slotAssets, Option.elim_none, zero_add]
      exact add_left_comm _ _ _
  have hd' : (ws.put a none).container? b = some d := by
    rw [container?_put none ha, if_neg (Ne.symm hne), hd]
  obtain ⟨hvalid', howns'⟩ := hrest.parts hd'
  refine ⟨hvalid, hvalid', howns'.of_eq ?_⟩
  abel

/-- Two containers that take the place of others in their registers. -/
theorem Sound.put_pair {x y : Option (Container α)} {w : World σ α} {m' : Multiset (Asset α)}
    (hs : Sound E m ws) (hne : a ≠ b) (ha : a < ws.registers.length)
    (hb : b < ws.registers.length) (hx : ∀ c, x = some c → c.Valid E)
    (hy : ∀ c, y = some c → c.Valid E)
    (h : w.Owns (slotAssets E x +
      (slotAssets E y + (((ws.put a none).put b none).assets E + m')))) :
    Sound E m' { (ws.put a x).put b y with world := w } := by
  have hb' : b < (ws.put a x).registers.length := hb.trans_eq List.length_set.symm
  constructor
  · intro i c hc
    change ((ws.put a x).put b y).container? i = some c at hc
    rw [container?_put y hb'] at hc
    by_cases hi : i = b
    · rw [if_pos hi] at hc
      exact hy c hc
    · rw [if_neg hi, container?_put x ha] at hc
      by_cases hi' : i = a
      · rw [if_pos hi'] at hc
        exact hx c hc
      · rw [if_neg hi'] at hc
        exact hs.valid i c hc
  · have hsum : ((ws.put a x).put b y).assets E
        = slotAssets E x + (slotAssets E y + ((ws.put a none).put b none).assets E) :=
      sum_put_pair rfl x y hne ha hb
    apply h.of_eq
    change _ = ((ws.put a x).put b y).assets E + m'
    rw [hsum, add_assoc, add_assoc]

/-- Another world with the same assets in custody. -/
theorem Sound.with_world {w : World σ α} {m' : Multiset (Asset α)} (hs : Sound E m ws)
    (h : w.Owns (ws.assets E + m')) : Sound E m' { ws with world := w } :=
  ⟨hs.valid, h⟩

/-! ## What the steps of a command come to -/

/-- A sequence of a register is its container. -/
theorem container?_of_sequence? {s : Sequence α} (h : ws.sequence? a = some s) :
    ws.container? a = some (.elements s) := by
  unfold sequence? at h
  split at h
  · rename_i hc
    rw [hc, Option.some.inj h]
  · cases h

/-- A bit sequence of a register is its container. -/
theorem container?_of_bitSequence? {s : BitSequence} (h : ws.bitSequence? a = some s) :
    ws.container? a = some (.bits s) := by
  unfold bitSequence? at h
  split at h
  · rename_i hc
    rw [hc, Option.some.inj h]
  · cases h

/-- A container of elements is a sequence. -/
theorem sequence?_of_elements {s : Sequence α} (h : ws.container? a = some (.elements s)) :
    ws.sequence? a = some s := by
  unfold sequence?
  rw [h]

/-- A container of bits is no sequence of elements. -/
theorem sequence?_of_bits {s : BitSequence} (h : ws.container? a = some (.bits s)) :
    ws.sequence? a = none := by
  unfold sequence?
  rw [h]

/-- A container of elements is no bit sequence. -/
theorem bitSequence?_of_elements {s : Sequence α} (h : ws.container? a = some (.elements s)) :
    ws.bitSequence? a = none := by
  unfold bitSequence?
  rw [h]

/-- A container of bits is a bit sequence. -/
theorem bitSequence?_of_bits {s : BitSequence} (h : ws.container? a = some (.bits s)) :
    ws.bitSequence? a = some s := by
  unfold bitSequence?
  rw [h]

/-- A pair is in two registers that are not the same one. -/
theorem pair?_of_some {c d : Container α} (h : ws.pair? a b = some (c, d)) :
    a ≠ b ∧ ws.container? a = some c ∧ ws.container? b = some d := by
  unfold pair? at h
  split at h
  · cases h
  · rename_i hne
    split at h
    · rename_i hc hd
      cases h
      exact ⟨hne, hc, hd⟩
    · cases h

/-- No pair means that the registers are the same one, or that one is empty. -/
theorem pair?_of_none (h : ws.pair? a b = none) :
    a = b ∨ ws.container? a = none ∨ ws.container? b = none := by
  unfold pair? at h
  split at h
  · exact .inl (by assumption)
  · cases ha : ws.container? a with
    | none => exact .inr (.inl rfl)
    | some c =>
        cases hb : ws.container? b with
        | none => exact .inr (.inr rfl)
        | some d =>
            rw [ha, hb] at h
            cases h

/-- An act on a sequence changes its register and the world. -/
theorem withSequence_of_some {s : Sequence α} (h : ws.sequence? a = some s)
    (act : SequenceAct σ α (Answer α)) :
    ws.withSequence a act = (.ofOutcome (act (s, ws.world)),
      { ws.put a (some (.elements (act (s, ws.world)).state.1)) with
        world := (act (s, ws.world)).state.2 }) := by
  unfold withSequence
  rw [h]

/-- Without a sequence there is nothing to act on. -/
theorem withSequence_of_none (h : ws.sequence? a = none) (act : SequenceAct σ α (Answer α)) :
    ws.withSequence a act = (.vacant, ws) := by
  unfold withSequence
  rw [h]

/-- An act on a bit sequence changes its register and the world. -/
theorem withBits_of_some {s : BitSequence} (h : ws.bitSequence? a = some s)
    (act : BitAct σ α (Answer α)) :
    ws.withBits a act = (.ofOutcome (act (s, ws.world)),
      { ws.put a (some (.bits (act (s, ws.world)).state.1)) with
        world := (act (s, ws.world)).state.2 }) := by
  unfold withBits
  rw [h]

/-- Without a bit sequence there is nothing to act on. -/
theorem withBits_of_none (h : ws.bitSequence? a = none) (act : BitAct σ α (Answer α)) :
    ws.withBits a act = (.vacant, ws) := by
  unfold withBits
  rw [h]

/-- An act on two sequences changes their registers and the world. -/
theorem withSequences_of_some {s t : Sequence α} (hne : a ≠ b) (hs : ws.sequence? a = some s)
    (ht : ws.sequence? b = some t)
    (act : Act ((Sequence α × Sequence α) × World σ α) (Answer α)) :
    ws.withSequences a b act = (.ofOutcome (act ((s, t), ws.world)),
      { (ws.put a (some (.elements (act ((s, t), ws.world)).state.1.1))).put b
          (some (.elements (act ((s, t), ws.world)).state.1.2)) with
        world := (act ((s, t), ws.world)).state.2 }) := by
  have hne' : (a == b) = false := beq_eq_false_iff_ne.mpr hne
  unfold withSequences
  rw [hne', hs, ht]

/-- Without the first sequence there is nothing to act on. -/
theorem withSequences_of_none (h : ws.sequence? a = none)
    (act : Act ((Sequence α × Sequence α) × World σ α) (Answer α)) :
    ws.withSequences a b act = (.vacant, ws) := by
  unfold withSequences
  rw [h]
  cases a == b <;> rfl

/-- An act on two bit sequences changes their registers and the world. -/
theorem withBitSequences_of_some {s t : BitSequence} (hne : a ≠ b)
    (hs : ws.bitSequence? a = some s) (ht : ws.bitSequence? b = some t)
    (act : Act ((BitSequence × BitSequence) × World σ α) (Answer α)) :
    ws.withBitSequences a b act = (.ofOutcome (act ((s, t), ws.world)),
      { (ws.put a (some (.bits (act ((s, t), ws.world)).state.1.1))).put b
          (some (.bits (act ((s, t), ws.world)).state.1.2)) with
        world := (act ((s, t), ws.world)).state.2 }) := by
  have hne' : (a == b) = false := beq_eq_false_iff_ne.mpr hne
  unfold withBitSequences
  rw [hne', hs, ht]

/-- Without the first bit sequence there is nothing to act on. -/
theorem withBitSequences_of_none (h : ws.bitSequence? a = none)
    (act : Act ((BitSequence × BitSequence) × World σ α) (Answer α)) :
    ws.withBitSequences a b act = (.vacant, ws) := by
  unfold withBitSequences
  rw [h]
  cases a == b <;> rfl

/-- A container that is used up leaves its register empty. -/
theorem consume_of_some {act : Container α → Option (Act (World σ α) (Answer α))}
    {act' : Act (World σ α) (Answer α)} (hc : ws.container? a = some c) (h : act c = some act') :
    ws.consume a act = (.ofOutcome (act' ws.world),
      { ws.put a none with world := (act' ws.world).state }) := by
  unfold consume
  rw [hc, Option.bind_some, h]
  rfl

/-- A container that the act does not take, stays. -/
theorem consume_of_none {act : Container α → Option (Act (World σ α) (Answer α))}
    (h : (ws.container? a).bind act = none) : ws.consume a act = (.vacant, ws) := by
  unfold consume
  rw [h]

/-! ## What a command can come to -/

/-- What an act on the container in a register can come to: it finds none of its kind there, or leaves one.
The kind is given by how such a container is seen `into` a register. -/
inductive Edited {S : Type} (into : S → Container α) (ws : Workspace σ α) (a : Nat)
    (act : Act (S × World σ α) (Answer α)) : Response α × Workspace σ α → Prop
  | vacant (hnone : ∀ s, ws.container? a ≠ some (into s)) : Edited into ws a act (.vacant, ws)
  | found {s : S} {o : Outcome (S × World σ α) (Answer α)} (hc : ws.container? a = some (into s))
      (ho : act (s, ws.world) = o) :
      Edited into ws a act (.ofOutcome o, { ws.put a (some (into o.state.1)) with world := o.state.2 })

/-- An act on a sequence is one on a container of elements. -/
theorem edited_withSequence (act : SequenceAct σ α (Answer α)) :
    Edited .elements ws a act (ws.withSequence a act) := by
  cases hs : ws.sequence? a with
  | none =>
      rw [withSequence_of_none hs]
      refine .vacant fun s hc => ?_
      rw [sequence?_of_elements hc] at hs
      cases hs
  | some s =>
      rw [withSequence_of_some hs]
      exact .found (container?_of_sequence? hs) rfl

/-- An act on a bit sequence is one on a container of bits. -/
theorem edited_withBits (act : BitAct σ α (Answer α)) :
    Edited .bits ws a act (ws.withBits a act) := by
  cases hs : ws.bitSequence? a with
  | none =>
      rw [withBits_of_none hs]
      refine .vacant fun s hc => ?_
      rw [bitSequence?_of_bits hc] at hs
      cases hs
  | some s =>
      rw [withBits_of_some hs]
      exact .found (container?_of_bitSequence? hs) rfl

section Cases

variable {P : Response α × Workspace σ α → Prop}

/-- It is enough to consider both cases. -/
theorem Edited.elim {S : Type} {into : S → Container α} {act : Act (S × World σ α) (Answer α)}
    {result : Response α × Workspace σ α} (h : Edited into ws a act result) (hvacant : P (.vacant, ws))
    (hfound : ∀ s, ws.container? a = some (into s) → ∀ o, act (s, ws.world) = o →
      P (.ofOutcome o, { ws.put a (some (into o.state.1)) with world := o.state.2 })) : P result := by
  cases h with
  | vacant _ => exact hvacant
  | found hc ho => exact hfound _ hc _ ho

/-- An act that uses a container up finds none in the register that it applies to, or leaves none there. -/
theorem consume_cases (act : Container α → Option (Act (World σ α) (Answer α))) (hvacant : P (.vacant, ws))
    (hact : ∀ c act', ws.container? a = some c → act c = some act' →
      P (.ofOutcome (act' ws.world), { ws.put a none with world := (act' ws.world).state })) :
    P (ws.consume a act) := by
  cases hc : (ws.container? a).bind act with
  | none =>
      rw [consume_of_none hc]
      exact hvacant
  | some act' =>
      obtain ⟨c, hsome, happlies⟩ := Option.bind_eq_some_iff.mp hc
      rw [consume_of_some hsome happlies]
      exact hact c act' hsome happlies

end Cases

section PairCases

variable {E : Element σ α} {P : Response α × Option (Container α) × Workspace σ α → Prop}

/-- A copy of a container is put into a register. -/
theorem copy_cases (hvacant : P (.vacant, none, ws))
    (hcopied : ∀ c, ws.container? a = some c → P (ws.store b do return some (← c.copy E))) :
    P (ws.perform E (.copy a b)) := by
  cases hc : ws.container? a with
  | none =>
      simp only [perform, hc]
      exact hvacant
  | some c =>
      simp only [perform, hc]
      exact hcopied c hc

/-- A copy of a container, taken for granted, is put into a register. -/
theorem copyDemanded_cases (hvacant : P (.vacant, none, ws))
    (hcopied : ∀ c, ws.container? a = some c → P (ws.store b do return some (← c.copyDemanded E))) :
    P (ws.perform E (.copyDemanded a b)) := by
  cases hc : ws.container? a with
  | none =>
      simp only [perform, hc]
      exact hvacant
  | some c =>
      simp only [perform, hc]
      exact hcopied c hc

/-- A container is copied onto one of its kind. -/
theorem copyFrom_cases (hvacant : P (.vacant, none, ws))
    (helements : ∀ s t, ws.pair? a b = some (.elements s, .elements t) →
      ∀ o, (do Sequence.copyFrom E t; return .nothing : SequenceAct σ α (Answer α)) (s, ws.world) = o →
      P (.ofOutcome o, none, { ws.put a (some (.elements o.state.1)) with world := o.state.2 }))
    (hbits : ∀ s t, ws.pair? a b = some (.bits s, .bits t) →
      ∀ o, (do BitSequence.copyFrom t; return .nothing : BitAct σ α (Answer α)) (s, ws.world) = o →
      P (.ofOutcome o, none, { ws.put a (some (.bits o.state.1)) with world := o.state.2 })) :
    P (ws.perform E (.copyFrom a b)) := by
  cases hpair : ws.pair? a b with
  | none =>
      simp only [perform, hpair]
      exact hvacant
  | some pair =>
      obtain ⟨c, d⟩ := pair
      obtain ⟨_, hc, _⟩ := pair?_of_some hpair
      have hfound : ∀ {c'}, ws.container? a = some c' → c = c' := fun hc' => Option.some.inj (hc.symm.trans hc')
      cases d with
      | elements t =>
          simp only [perform, hpair]
          refine (edited_withSequence _).elim (P := fun result => P (perform.keep result)) hvacant fun s hs => ?_
          obtain rfl := hfound hs
          exact helements s t hpair
      | bits t =>
          simp only [perform, hpair]
          refine (edited_withBits _).elim (P := fun result => P (perform.keep result)) hvacant fun s hs => ?_
          obtain rfl := hfound hs
          exact hbits s t hpair

/-- A container is moved onto one of its kind. -/
theorem moveFrom_cases (hvacant : P (.vacant, none, ws))
    (helements : ∀ s t, ws.pair? a b = some (.elements s, .elements t) →
      ∀ o, (do Sequence.moveFrom E; return .nothing :
        Act ((Sequence α × Sequence α) × World σ α) (Answer α)) ((s, t), ws.world) = o →
      P (.ofOutcome o, none, { (ws.put a (some (.elements o.state.1.1))).put b
        (some (.elements o.state.1.2)) with world := o.state.2 }))
    (hbits : ∀ s t, ws.pair? a b = some (.bits s, .bits t) →
      ∀ o, (do BitSequence.moveFrom; return .nothing :
        Act ((BitSequence × BitSequence) × World σ α) (Answer α)) ((s, t), ws.world) = o →
      P (.ofOutcome o, none, { (ws.put a (some (.bits o.state.1.1))).put b
        (some (.bits o.state.1.2)) with world := o.state.2 })) :
    P (ws.perform E (.moveFrom a b)) := by
  cases hpair : ws.pair? a b with
  | none =>
      simp only [perform, hpair]
      exact hvacant
  | some pair =>
      obtain ⟨c, d⟩ := pair
      obtain ⟨hne, hc, hd⟩ := pair?_of_some hpair
      cases d with
      | elements t =>
          simp only [perform, hpair]
          cases c with
          | elements s =>
              rw [withSequences_of_some hne (sequence?_of_elements hc) (sequence?_of_elements hd)]
              exact helements s t hpair _ rfl
          | bits s =>
              rw [withSequences_of_none (sequence?_of_bits hc)]
              exact hvacant
      | bits t =>
          simp only [perform, hpair]
          cases c with
          | elements s =>
              rw [withBitSequences_of_none (bitSequence?_of_elements hc)]
              exact hvacant
          | bits s =>
              rw [withBitSequences_of_some hne (bitSequence?_of_bits hc) (bitSequence?_of_bits hd)]
              exact hbits s t hpair _ rfl

end PairCases

/-- What comes of putting a new container into a register: if the act that makes it is as claimed, one of
these. -/
inductive Stores (ws : Workspace σ α) (a : Nat) (post : Post (World σ α) (Option (Container α))) :
    Response α × Option (Container α) × Workspace σ α → Prop
  | vacant (hfar : ¬ a < ws.registers.length) : Stores ws a post (.vacant, none, ws)
  | stored {c : Container α} {w : World σ α} (ha : a < ws.registers.length)
      (hc : post.done (some c) w) :
      Stores ws a post (.answer .nothing, ws.container? a, { ws.put a (some c) with world := w })
  | invalid {w : World σ α} (ha : a < ws.registers.length) (hnone : post.done none w) :
      Stores ws a post (.invalid, none, { ws with world := w })
  | refused {e : SequenceError} {w : World σ α} (ha : a < ws.registers.length)
      (he : post.refused e w) : Stores ws a post (.refused e, none, { ws with world := w })
  | faulted {f : Fault} {w : World σ α} (ha : a < ws.registers.length)
      (hf : post.faulted f w) : Stores ws a post (.faulted f, none, { ws with world := w })

/-- What an act to be stored comes to is what is said of the act. -/
theorem store_spec {act : Act (World σ α) (Option (Container α))}
    {post : Post (World σ α) (Option (Container α))} (h : (act ws.world).Meets post) :
    Stores ws a post (ws.store a act) := by
  unfold store
  by_cases ha : a < ws.registers.length
  · rw [if_pos ha]
    cases hact : act ws.world with
    | done slot w =>
        rw [hact] at h
        cases slot with
        | none => exact .invalid ha h
        | some c => exact .stored ha h
    | refused e w =>
        rw [hact] at h
        exact .refused ha h
    | faulted f w =>
        rw [hact] at h
        exact .faulted ha h
  · rw [if_neg ha]
    exact .vacant ha

end Workspace

end Growable
