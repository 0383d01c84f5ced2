import Growable.Proofs.Custody.Identity
import Growable.Proofs.Program.Accounting

/-!
# The ledger of containers

The ledger has the block of every container, under the identity of the container's handle.  A command deals with
one allocator at a time; and what it does to the ledger with that allocator, the trace bears out
(`World.Balanced.step`).  Only a copy from under a foreign handle deals with two allocators, first with the one,
then with the other.

* `Handle.Kin` — blocks pass by identity, and the allocator is who it is known to be;
* `World.Balanced.change`, `World.Balanced.make`, ... — containers are changed, made, disposed of, and exchange
  their blocks;
* `World.Balanced.worked`, `World.Balanced.superseded` — a container of either kind is worked on, or another
  one takes its place;
* `Edit.perform_balanced`, `Sequence.copyFrom_balanced`, ... — the operations leave the world in balance, however
  they end.
-/

namespace Growable

open Act

variable {σ α : Type} {E : Element σ α} {who : Nat → Identity} {w w' : World σ α} {others : Multiset Entry}
  {m rest : Multiset (Asset α)}

/-! ## Handles of a kind -/

/-- The handle lets blocks pass by identity, and its allocator is who it is known to be. -/
structure Handle.Kin (who : Nat → Identity) (h : Handle) : Prop where
  rule : h.interchangeable = sameIdentity
  identity : h.allocator.identity = who h.allocator.place

/-- Equivalent handles of one ledger have one identity. -/
theorem Handle.Kin.identity_eq {h other : Handle} (hkin : h.Kin who) (hsame : h.isEquivalent other = true) :
    h.allocator.identity = other.allocator.identity := by
  rw [isEquivalent, hkin.rule] at hsame
  exact eq_of_beq hsame

/-- A handle that comes along without the contents being copied has the identity that was there. -/
theorem Handle.Kin.identity_of_own {h other : Handle} (hkin : h.Kin who) (hown : ¬ h.Foreign other)
    (hcomes : other.propagates) : h.allocator.identity = other.allocator.identity := by
  apply hkin.identity_eq
  by_contra hapart
  exact hown ⟨hcomes, Bool.eq_false_iff.mpr hapart⟩

/-- Without its contents being replaced whole, a container keeps the identity that it had. -/
theorem Handle.Kin.identity_of_kept {h other left : Handle} (hkin : h.Kin who) (hown : ¬ h.Foreign other)
    (hleft : left = h ∨ other.propagates ∧ left = other) :
    left.allocator.identity = h.allocator.identity := by
  rcases hleft with rfl | ⟨hcomes, rfl⟩
  · rfl
  · exact (hkin.identity_of_own hown hcomes).symm

/-! ## The ledger -/

namespace Container

variable {c : Container α}

/-- The block of a container, if it has one. -/
def blocks (E : Element σ α) (c : Container α) : Multiset (Block × Nat) :=
  (c.assets E).filterMap Asset.block?

/-- The identity under which a container stands in the ledger. -/
def identity (c : Container α) : Identity := c.handle.allocator.identity

/-- The entry of a container in the ledger, if it has a block. -/
def holdings (E : Element σ α) (c : Container α) : Multiset Entry := (c.blocks E).map (Prod.mk c.identity)

/-- The blocks of a sequence are those of its region. -/
theorem blocks_elements (s : Sequence α) : (elements s).blocks E
    = (s.region.assets E.toShape : Multiset (Asset α)).filterMap Asset.block? := by
  rw [blocks, assets, Sequence.assets, Multiset.filterMap_add, Asset.filterMap_block?_elements, zero_add]

/-- Sequences with one region have the same blocks. -/
theorem blocks_of_region {s t : Sequence α} (h : s.region = t.region) :
    (elements s).blocks E = (elements t).blocks E := by
  rw [blocks_elements, blocks_elements, h]

theorem blocks_of_bits_region {s t : BitSequence} (h : s.region = t.region) :
    (bits s : Container α).blocks E = (bits t).blocks E := by
  rw [blocks, blocks, assets, assets, BitSequence.assets, BitSequence.assets, h]

/-- The blocks of a container are held by the identity its handle has in the ledger. -/
theorem holdings_of_kin (hc : c.handle.Kin who) :
    c.holdings E = (c.blocks E).map (Prod.mk (who c.handle.allocator.place)) := by
  rw [holdings, identity, hc.identity]

/-- The block of a region is held with its exact size. -/
theorem mem_holdings (hc : c.Valid E) {block : Block} (hblock : c.region.block = some block) :
    (c.identity, block, c.bytes E) ∈ c.holdings E := by
  apply Multiset.mem_map.mpr
  refine ⟨(block, c.bytes E), ?_, rfl⟩
  cases c with
  | elements s =>
      have hblock : s.region.block = some block := hblock
      rw [blocks_elements, Region.assets, hblock]
      exact Multiset.mem_singleton_self _
  | bits s =>
      have hblock : s.region.block = some block := hblock
      rw [blocks, assets, BitSequence.assets, Region.assets, hblock]
      exact Multiset.mem_singleton_self _

/-- The sizes of the blocks add up to the bytes of the container. -/
theorem Valid.sum_blocks (hc : c.Valid E) : ((c.blocks E).map Prod.snd).sum = c.bytes E := by
  rw [blocks, hc.sizes_eq, Multiset.filter_singleton]
  by_cases hzero : c.bytes E = 0
  · rw [if_neg (not_not.mpr hzero), hzero]
    rfl
  · rw [if_pos hzero, Multiset.sum_singleton]

end Container

namespace World.Balanced

variable {c d x y : Container α} {place : Nat}

/-- No blocks are no entries. -/
theorem nothing_iff {label : Block × Nat → Entry} :
    w.Balanced who ((0 : Multiset (Block × Nat)).map label + others) ↔ w.Balanced who others := by
  rw [Multiset.map_zero, zero_add]

/-- Where the same is in custody as before, the ledger stays. -/
theorem still (h : w.Balanced who others) (hw : w.Evolves (Event.At place) w') (hm : w.Owns m)
    (hm' : w'.Owns m) : w'.Balanced who others :=
  nothing_iff.mp ((nothing_iff.mpr h).step hw hm hm' (zero_add _).symm (zero_add _).symm)

/-- What one container had, another one of that identity has. -/
theorem change (h : w.Balanced who (c.holdings E + others)) (hc : c.handle.Kin who)
    (hd : d.identity = c.identity)
    (hw : w.Evolves (Event.At c.handle.allocator.place) w') (hm : w.Owns (c.assets E + rest))
    (hm' : w'.Owns (d.assets E + rest)) : w'.Balanced who (d.holdings E + others) := by
  rw [Container.holdings_of_kin hc] at h
  have hafter := h.step hw hm hm' (Multiset.filterMap_add ..) (Multiset.filterMap_add ..)
  apply hafter.of_eq
  rw [Container.holdings, hd, Container.identity, hc.identity]
  rfl

/-- A container that was made stands in the ledger. -/
theorem make (h : w.Balanced who others) (hd : d.handle.Kin who)
    (hw : w.Evolves (Event.At d.handle.allocator.place) w') (hm : w.Owns m)
    (hm' : w'.Owns (d.assets E + m)) : w'.Balanced who (d.holdings E + others) := by
  rw [Container.holdings_of_kin hd]
  exact (nothing_iff.mpr h).step hw hm hm' (zero_add _).symm (Multiset.filterMap_add ..)

/-- A container that is gone does not. -/
theorem release (h : w.Balanced who (c.holdings E + others)) (hc : c.handle.Kin who)
    (hw : w.Evolves (Event.At c.handle.allocator.place) w') (hm : w.Owns (c.assets E + rest))
    (hm' : w'.Owns rest) : w'.Balanced who others := by
  rw [Container.holdings_of_kin hc] at h
  exact nothing_iff.mp (h.step hw hm hm' (Multiset.filterMap_add ..) (zero_add _).symm)

/-- Two containers of one identity may exchange their blocks; otherwise the second one keeps its own. -/
theorem move (h : w.Balanced who (c.holdings E + (d.holdings E + others))) (hc : c.handle.Kin who)
    (hfirst : x.handle = c.handle) (hsecond : y.handle = d.handle)
    (hpass : c.identity = d.identity ∨ y.blocks E = d.blocks E)
    (hw : w.Evolves (Event.At c.handle.allocator.place) w')
    (hm : w.Owns (c.assets E + (d.assets E + rest))) (hm' : w'.Owns (x.assets E + (y.assets E + rest))) :
    w'.Balanced who (x.holdings E + (y.holdings E + others)) := by
  have hx : x.identity = c.identity := congrArg (·.allocator.identity) hfirst
  have hy : y.identity = d.identity := congrArg (·.allocator.identity) hsecond
  have hwho : c.identity = who c.handle.allocator.place := hc.identity
  rcases hpass with hsame | hkept
  · have hall : w.Balanced who
        ((c.blocks E + d.blocks E).map (Prod.mk (who c.handle.allocator.place)) + others) := by
      apply h.of_eq
      rw [Container.holdings, Container.holdings, ← hsame, hwho, ← add_assoc, Multiset.map_add]
    have hblocks : ∀ c d : Container α, (c.assets E + (d.assets E + rest)).filterMap Asset.block?
        = c.blocks E + d.blocks E + rest.filterMap Asset.block? := by
      intro c d
      rw [Multiset.filterMap_add, Multiset.filterMap_add, ← add_assoc]
      rfl
    apply (hall.step hw hm hm' (hblocks c d) (hblocks x y)).of_eq
    rw [Container.holdings, Container.holdings, hx, hy, ← hsame, hwho, Multiset.map_add, add_assoc]
  · have hsame : (y.assets E + rest).filterMap Asset.block?
        = (d.assets E + rest).filterMap Asset.block? := by
      rw [Multiset.filterMap_add, Multiset.filterMap_add]
      exact congrArg (· + rest.filterMap Asset.block?) hkept
    have hheld : y.holdings E = d.holdings E := by
      rw [Container.holdings, Container.holdings, hy, hkept]
    rw [Container.holdings_of_kin hc] at h
    rw [hheld, Container.holdings, hx, hwho]
    exact h.step hw hm hm' (Multiset.filterMap_add ..) ((Multiset.filterMap_add ..).trans (congrArg _ hsame))

section Acts

variable {S β : Type} (into : S → Container α) {s : S} (hc : (into s).handle.Kin who)
  (h : w.Balanced who ((into s).holdings E + others)) (hm : w.Owns ((into s).assets E + rest))

include hc h hm

/-- Work on a container with its own allocator, however it ends, leaves what is in custody then. -/
theorem worked {o : Outcome (S × World σ α) β}
    (howns : o.Meets (.always fun u => u.2.Owns ((into u.1).assets E + rest)))
    (hevolves : o.Meets (.always fun u => (into u.1).identity = (into s).identity ∧
      w.Evolves (Event.At (into s).handle.allocator.place) u.2)) :
    o.Meets (.always fun u => u.2.Balanced who ((into u.1).holdings E + others)) := by
  have hm' := Outcome.meets_always.mp howns
  obtain ⟨hidentity, hw⟩ := Outcome.meets_always.mp hevolves
  exact Outcome.meets_always.mpr (h.change hc hidentity hw hm hm')

/-- First another container is made with the one allocator, then the old one goes with the other. -/
theorem superseded {make : Act (World σ α) S} {dispose : Act (World σ α) Unit} {handle : Handle}
    (hkin : handle.Kin who)
    (hmake : (make w).Meets
      ⟨fun t w₁ => (w₁.Owns ((into t).assets E + ((into s).assets E + rest)) ∧ (into t).handle = handle) ∧
          w.Evolves (Event.At handle.allocator.place) w₁,
        fun _ w₁ => w₁.Owns ((into s).assets E + rest) ∧ w.Evolves (Event.At handle.allocator.place) w₁,
        fun _ w₁ => w₁.Owns ((into s).assets E + rest) ∧ w.Evolves (Event.At handle.allocator.place) w₁⟩)
    (hdispose : ∀ (w₁ : World σ α) m, w₁.Owns ((into s).assets E + m) →
      (dispose w₁).Meets (.always fun w₂ => w₂.Owns m ∧
        w₁.Evolves (Event.At (into s).handle.allocator.place) w₂)) :
    ((do
      let t ← inWorld make
      hold t
      inWorld dispose : Act (S × World σ α) Unit) (s, w)).Meets
        (.always fun u => u.2.Balanced who ((into u.1).holdings E + others)) := by
  simp only [bind_meets, inWorld_meets, hold_meets]
  apply hmake.imp
  · rintro t w₁ ⟨⟨hm₁, rfl⟩, hw₁⟩
    have hboth : w₁.Balanced who ((into s).holdings E + ((into t).holdings E + others)) :=
      (h.make hkin hw₁ hm hm₁).of_eq (add_left_comm _ _ _)
    have howns : w₁.Owns ((into s).assets E + ((into t).assets E + rest)) :=
      hm₁.of_eq (add_left_comm _ _ _)
    exact (hdispose w₁ _ howns).always_imp fun _ hw₂ => hboth.release hc hw₂.2 howns hw₂.1
  · exact fun _ _ hw₁ => h.still hw₁.2 hm hw₁.1
  · exact fun _ _ hw₁ => h.still hw₁.2 hm hw₁.1

end Acts

end World.Balanced

/-! ## Operations -/

section Sequences

variable {s t : Sequence α} (hkin : s.handle.Kin who) (hs : Sequence.Sound E m (s, w))
  (h : w.Balanced who ((Container.elements s).holdings E + others))

include hkin hs h

/-- **Step.**  An operation on a sequence keeps the ledger balanced. -/
theorem Edit.perform_balanced (e : Edit α) (hle : E.bytes * s.len ≤ Size.blockLimit) :
    (e.perform E (s, w)).Meets (.always fun u =>
      u.2.Balanced who ((Container.elements u.1).holdings E + others)) := by
  have hevolves := e.perform_evolves (E := E) (P := fun _ => True) Event.at_of_local s.handle.maxBytes_le
    trivial (fun _ _ => trivial) (fun _ => ⟨hle, fun _ _ => trivial⟩) (.refl w)
  apply h.worked .elements hkin hs.owns
  · exact (e.perform_sound hs).always_imp fun _ hu => hu.owns
  · exact hevolves.always_imp fun u hu => ⟨congrArg (·.allocator.identity) hu.1.1, hu.2⟩

/-- First a copy is made with the one allocator, then the old elements go with the other. -/
theorem Sequence.copyFrom_balanced_foreign (ht : t.handle.Kin who) (hforeign : s.handle.Foreign t.handle)
    (hle : E.bytes * t.len ≤ Size.blockLimit) :
    (copyFrom E t (s, w)).Meets (.always fun u =>
      u.2.Balanced who ((Container.elements u.1).holdings E + others)) := by
  have hmade := (copy_meets (E := E) (s := t) hs.owns).and
    (yields_copy (E := E) Event.at_of_local rfl hle w (.refl w))
  rw [copyFrom_foreign hforeign]
  apply h.superseded .elements hkin hs.owns ht
  · apply hmade.imp
    · exact fun _ _ hw₁ => ⟨⟨hw₁.1.1.owns, hw₁.2.1.1⟩, hw₁.2.2⟩
    · exact fun _ _ hw₁ => ⟨hw₁.1.2, hw₁.2⟩
    · exact fun _ _ hw₁ => ⟨hw₁.1.2.1, hw₁.2⟩
  · intro w₁ m' hm
    have hgone := (dispose_meets hs.valid false hm).and
      (keeps_dispose (E := E) (Event.at_of_upkeep 0) false rfl w₁ (.refl w₁))
    apply hgone.imp
    · exact fun _ _ => id
    · exact fun _ _ hw₂ => hw₂.1.elim
    · exact fun _ _ hw₂ => ⟨hw₂.1.2.1, hw₂.2⟩

/-- A copy keeps it balanced, though the allocator may change. -/
theorem Sequence.copyFrom_balanced (ht : t.handle.Kin who) (hle : E.bytes * t.len ≤ Size.blockLimit) :
    (copyFrom E t (s, w)).Meets (.always fun u =>
      u.2.Balanced who ((Container.elements u.1).holdings E + others)) := by
  by_cases hforeign : s.handle.Foreign t.handle
  · exact copyFrom_balanced_foreign hkin hs h ht hforeign hle
  · have hevolves := copyFrom_evolves_own (E := E) (P := fun _ => True) hforeign Event.at_of_local trivial
      (fun _ => hle) (fun _ _ _ => trivial) (.refl w)
    apply h.worked .elements hkin hs.owns
    · exact (sound_of_soundly (copyFrom_meets hs)).always_imp fun _ hu => hu.owns
    · exact hevolves.always_imp fun _ hu => ⟨hkin.identity_of_kept hforeign hu.1.1, hu.2⟩

end Sequences

/-- The first sequence keeps its identity, and so does the second one. -/
theorem Sequence.moveFrom_balanced {s t : Sequence α} (hkin : s.handle.Kin who)
    (hs : SoundPair E m ((s, t), w)) (hle : E.bytes * t.len ≤ Size.blockLimit)
    (h : w.Balanced who ((Container.elements s).holdings E + ((Container.elements t).holdings E + others))) :
    (moveFrom E ((s, t), w)).Meets (.always fun u => u.2.Balanced who
      ((Container.elements u.1.1).holdings E + ((Container.elements u.1.2).holdings E + others))) := by
  have hevolves := moveFrom_evolves (E := E) (s := s) (P := fun _ => True) (Event.at_of_upkeep _) trivial hle
    (fun _ => trivial) (fun _ _ _ => trivial) (.refl w)
  obtain ⟨⟨⟨hfirst, _⟩, hw⟩, hsecond, hregion⟩ := Outcome.meets_always.mp hevolves
  have hsound := Outcome.meets_always.mp hs.moved
  exact Outcome.meets_always.mpr (h.move hkin hfirst hsecond
    (hregion.symm.imp (fun hsame => hkin.identity_eq hsame.1) Container.blocks_of_region) hw hs.owns
    hsound.owns)

section BitSequences

variable {s t : BitSequence} (hkin : s.handle.Kin who) (hs : BitSequence.Sound m (s, w))
  (h : w.Balanced who ((Container.bits s : Container α).holdings E + others))

include hkin hs h

/-- **Step.**  An operation on a bit sequence keeps the ledger balanced. -/
theorem BitEdit.perform_balanced (e : BitEdit)
    (hle : Word.shape.bytes * Word.wordsFor s.len ≤ Size.blockLimit) :
    ((e.perform : BitAct σ α (Answer α)) (s, w)).Meets (.always fun u =>
      u.2.Balanced who ((Container.bits u.1 : Container α).holdings E + others)) := by
  have hevolves := e.perform_evolves (P := fun _ => True) Event.at_of_local s.handle.maxBytes_le
    trivial (fun _ _ => trivial) (fun _ => ⟨hle, fun _ _ => trivial⟩) (.refl w)
  apply h.worked .bits hkin hs.owns
  · exact (e.perform_sound hs).always_imp fun _ hu => hu.owns
  · exact hevolves.always_imp fun u hu => ⟨congrArg (·.allocator.identity) hu.1.1, hu.2⟩

/-- A copy with a foreign handle returns the old block to the old allocator and holds one of the
new. -/
theorem BitSequence.copyFrom_balanced_foreign (hvalid : t.Valid) (ht : t.handle.Kin who)
    (hforeign : s.handle.Foreign t.handle)
    (hle : Word.shape.bytes * Word.wordsFor t.len ≤ Size.blockLimit) :
    (copyFrom t (s, w)).Meets (.always fun u =>
      u.2.Balanced who ((Container.bits u.1 : Container α).holdings E + others)) := by
  have hmade := (copy_meets hvalid hs.owns).and (yields_copy (Event.at_of_upkeep _) rfl hle w (.refl w))
  rw [copyFrom_foreign hforeign]
  apply h.superseded .bits hkin hs.owns ht
  · apply hmade.imp
    · exact fun _ _ hw₁ => ⟨⟨hw₁.1.1.owns, hw₁.2.1.1⟩, hw₁.2.2⟩
    · exact fun _ _ hw₁ => ⟨hw₁.1.2, hw₁.2⟩
    · exact fun _ _ hw₁ => ⟨hw₁.1.1, hw₁.2⟩
  · intro w₁ m' hm
    have hgone := (dispose_meets hs.valid hm).and
      (keeps_dispose (Event.at_of_upkeep 0) rfl w₁ (.refl w₁))
    apply hgone.imp
    · exact fun _ _ => id
    · exact fun _ _ hw₂ => hw₂.1.elim
    · exact fun _ _ hw₂ => hw₂.1.elim

/-- A copy keeps the ledger balanced, whichever handle results. -/
theorem BitSequence.copyFrom_balanced (hvalid : t.Valid) (ht : t.handle.Kin who)
    (hle : Word.shape.bytes * Word.wordsFor t.len ≤ Size.blockLimit) :
    (copyFrom t (s, w)).Meets (.always fun u =>
      u.2.Balanced who ((Container.bits u.1 : Container α).holdings E + others)) := by
  by_cases hforeign : s.handle.Foreign t.handle
  · exact copyFrom_balanced_foreign hkin hs h hvalid ht hforeign hle
  · have hevolves := copyFrom_evolves_own (P := fun _ => True) hforeign (Event.at_of_upkeep _) trivial
      (fun _ => hle) (fun _ _ _ => trivial) (.refl w)
    apply h.worked .bits hkin hs.owns
    · exact (sound_of_soundly (copyFrom_meets hvalid hs)).always_imp fun _ hu => hu.owns
    · exact hevolves.always_imp fun _ hu => ⟨hkin.identity_of_kept hforeign hu.1.1, hu.2⟩

end BitSequences

/-- A move keeps it balanced, and a block changes sides only within one identity. -/
theorem BitSequence.moveFrom_balanced {s t : BitSequence} (hkin : s.handle.Kin who)
    (hs : SoundPair m ((s, t), w)) (hle : Word.shape.bytes * Word.wordsFor t.len ≤ Size.blockLimit)
    (h : w.Balanced who ((Container.bits s : Container α).holdings E +
      ((Container.bits t : Container α).holdings E + others))) :
    (moveFrom ((s, t), w)).Meets (.always fun u => u.2.Balanced who
      ((Container.bits u.1.1 : Container α).holdings E +
        ((Container.bits u.1.2 : Container α).holdings E + others))) := by
  have hevolves := moveFrom_evolves (s := s) (P := fun _ => True) (Event.at_of_upkeep _) trivial hle
    (fun _ => trivial) (fun _ _ _ => trivial) (.refl w)
  obtain ⟨⟨⟨hfirst, _⟩, hw⟩, hsecond, hregion⟩ := Outcome.meets_always.mp hevolves
  have hsound := Outcome.meets_always.mp hs.moved
  exact Outcome.meets_always.mpr (h.move hkin hfirst hsecond
    (hregion.symm.imp (fun hsame => hkin.identity_eq hsame.1) Container.blocks_of_bits_region) hw hs.owns
    hsound.owns)

end Growable
