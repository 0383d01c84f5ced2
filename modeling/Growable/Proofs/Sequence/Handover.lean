import Growable.Proofs.Handover
import Growable.Proofs.Sequence.Demand
import Growable.Proofs.Sequence.Refinement

/-!
# How the contents of sequences change hands

* `replace_raising` — exactly what happens when new contents take the place of old ones;
* `moveFrom_moved` — what moving comes to;
* `copyFrom_copied` — what copying comes to, where clones are equal to their sources;
* `copyFrom_done` — when copying is done for sure.
-/

namespace Growable

/-- Where clones are equal to their sources, all clones together are. -/
theorem Element.Clones.eq {σ α : Type} {E : Element σ α} {xs ys : List α} {code code' : σ}
    (h : E.Clones xs code ys code') (hE : E.Exact) : ys = xs := by
  induction h with
  | nil => rfl
  | cons hx _ ih => rw [ih, hE.clone ⟨_, congrArg Prod.fst hx⟩]

namespace Sequence

open Act

variable {σ α : Type} {E : Element σ α} {s t : Sequence α} {w : World σ α}

/-- A sequence holds elements, all of which have code of their own. -/
def kind (E : Element σ α) : Kind (Sequence α) α α where
  toStorage := storage E
  items := items
  elements := items

/-! ## Old contents -/

/-- All elements are dropped and the region is returned, also when a drop faults. -/
theorem dispose_raising (hs : s.Valid E) (hfits : E.toShape.Fits) (w : World σ α) :
    (s.dispose E false w).Meets (.raising (E.dropFault? s.items w.code)
      (w.Passes ((kind E).disposal E s w.code) (E.afterDrops s.items w.code))) := by
  have hrelease : ∀ code, (s.region.release E.toShape s.handle.allocator
      (w.after (E.dropEvents s.items w.code) code)).Meets
        (.returns fun _ w' => w.Passes ((kind E).disposal E s w.code) code w') := by
    intro code
    apply (Region.release_passes hs.region hfits s.handle.allocator _).of_returns
    exact fun _ w' hw' => (World.passes_after w _ code).trans hw'
  rw [dispose, ensuring_meets]
  apply (E.dropAll_raising s.items w).imp
  · rintro _ w₁ ⟨hnone, rfl⟩
    exact (hrelease _).of_returns fun _ _ hw' => ⟨hnone, hw'⟩
  · exact fun _ _ => False.elim
  · rintro f w₁ ⟨message, hsome, hf, rfl⟩
    exact (hrelease _).of_returns fun _ _ hw' => ⟨message, hsome, hf, hw'⟩

/-- The new block is in place and the old one gone, and a drop that faults is reported. -/
theorem replace_raising (hs : s.Valid E) (hfits : E.toShape.Fits) (region : Region) (items : List α)
    (w : World σ α) :
    (replace E region items (s, w)).Meets (.raising (E.dropFault? s.items w.code) fun u =>
      u.1 = { s with region, items } ∧
        w.Passes ((kind E).disposal E s w.code) (E.afterDrops s.items w.code) u.2) := by
  simp only [replace, bind_meets, held_meets, hold_meets]
  exact raising_inWorld (dispose_raising hs hfits w)

/-! ## Moving -/

/-- Whichever region it is in which the elements come to `s`, what `s` held before is disposed of then. -/
theorem replace_handed (hs : s.Valid E) (hfits : E.toShape.Fits) (region : Region) (rest : Sequence α)
    {w₁ : World σ α} {es : List (Event α)} (hnone : rest.items = []) (hhandle : rest.handle = t.handle)
    (hw₁ : w.Passes es w.code w₁) :
    (onFirst (replace E region t.items) ((s, rest), w₁)).Meets (.responding fun response u =>
      u.1 = ({ s with region, items := t.items }, rest) ∧
        (kind E).Handed E s t w es response u.1.1 u.1.2 u.2) := by
  have hreplaced := replace_raising hs hfits region t.items w₁
  rw [hw₁.code_eq] at hreplaced
  have hraising : (onFirst (replace E region t.items) ((s, rest), w₁)).Meets
      (.raising (E.dropFault? s.items w.code) fun u =>
        u.1 = ({ s with region, items := t.items }, rest) ∧
          w₁.Passes ((kind E).disposal E s w.code) (E.afterDrops s.items w.code) u.2) := by
    apply onFirst_meets.mpr
    apply hreplaced.imp
    · exact fun _ _ hu => ⟨hu.1, Prod.ext hu.2.1 rfl, hu.2.2⟩
    · exact fun _ _ => False.elim
    · rintro f u ⟨message, hsome, hf, hitems, hu⟩
      exact ⟨message, hsome, hf, Prod.ext hitems rfl, hu⟩
  apply Post.responding_of_raising hraising
  rintro ⟨⟨s', t'⟩, w'⟩ ⟨hboth, hw'⟩
  obtain ⟨rfl, rfl⟩ := Prod.mk.inj hboth
  exact ⟨rfl, rfl, rfl, hnone, rfl, hhandle, hw₁.trans hw'⟩

/-- A move hands the block over, or carries the elements over, or is declined. -/
theorem moveFrom_moved (hs : s.Valid E) (ht : t.Valid E) (hfits : E.toShape.Fits) (w : World σ α) :
    (moveFrom E ((s, t), w)).Meets (.responding fun response u =>
      (kind E).Moved E s t w response u.1.1 u.1.2 u.2) := by
  simp only [moveFrom, bind_meets, held_meets, ite_meets, hold_meets, inWorld_meets]
  refine ⟨fun hpass => ?_, fun hstay => ?_⟩
  · have hhanded := replace_handed (t := t) hs hfits t.region { t with region := .empty, items := [] } rfl
      rfl (.refl w)
    apply hhanded.responding_imp
    rintro response ⟨⟨s', t'⟩, w'⟩ ⟨hboth, hhanded⟩
    obtain ⟨rfl, rfl⟩ := Prod.mk.inj hboth
    exact .of_passed hpass hhanded rfl rfl rfl
  · have hroom : t.items.length ≤ t.len - 0 := Nat.le_refl _
    simp only [Staging.allocate, bind_meets, pure_meets, Staging.moveAfter_meets, Staging.adopt_meets]
    apply (Region.allocate_passes E.toShape s.handle.allocator t.len w).imp
    · rintro r w₁ ⟨hgrants, rfl, hw₁⟩
      refine ⟨fun _ => ⟨fun _ => ?_, fun hne => absurd trivial hne⟩, fun hfull => absurd hroom hfull⟩
      have hhanded := replace_handed (t := t) hs hfits (.fresh E.toShape t.len w)
        { t with items := [] } rfl rfl hw₁
      apply hhanded.responding_imp
      rintro response ⟨⟨s', t'⟩, w'⟩ ⟨hboth, hhanded⟩
      obtain ⟨rfl, rfl⟩ := Prod.mk.inj hboth
      exact .of_carried hstay hgrants hhanded rfl rfl
    · rintro e w₁ (hnone | ⟨hpos, hdeclines, rfl, hw₁⟩)
      · rw [ht.region.bytes?_eq hfits ht.len_le] at hnone
        cases hnone
      · exact .of_declined hstay hpos hdeclines hw₁
    · exact fun _ _ => False.elim

/-! ## Copying -/

/-- Old contents, no drop of which faulted. -/
theorem dispose_done (hs : s.Valid E) (hfits : E.toShape.Fits) (w : World σ α) :
    (s.dispose E false w).Meets (.whenDone fun _ w' =>
      w.Emits (s.items.map (.dropped · false) ++ s.region.returning E.toShape s.handle.allocator) w') := by
  apply (dispose_raising hs hfits w).whenDone
  rintro _ w' ⟨hnone, hw'⟩
  have hemits := hw'.emits
  rw [Kind.disposal] at hemits
  exact E.dropEvents_of_calm hnone ▸ hemits

/-- Clones of some elements are put together in a region of exactly their number. -/
def cloning (E : Element σ α) (allocator : Allocator) (xs : List α) :
    Act (World σ α) (Region × List α) := do
  let staging ← Staging.allocate E allocator xs.length
  let staging ← staging.extend E (fun k => do E.clone (← ofOption .source xs[k]?)) 0 xs.length
  staging.adopt

/-- Exact clones fill a block of exactly their number. -/
theorem cloning_exact (hE : E.Exact) (allocator : Allocator) (xs : List α) (w : World σ α) :
    (cloning E allocator xs w).Meets (.whenDone fun r w' => r = (.fresh E.toShape xs.length w, xs) ∧
      w.Emits (r.1.granting E.toShape allocator ++ xs.map fun x => .cloned x x) w') := by
  have hmake : ∀ (j : Nat) (x : α), xs[j]? = some x →
      (do E.clone (← ofOption .source xs[j]?) : Act (World σ α) α) = E.clone x := by
    intro j x hx
    rw [hx]
    rfl
  apply (Staging.clone_all allocator hmake).whenDone
  rintro ⟨region, made⟩ w' ⟨code, hmade, hregion, hw'⟩
  have hemits := hw'.emits
  dsimp only at hmade hregion hemits ⊢
  rw [hmade.eq hE, List.zipWith_self] at hemits
  exact ⟨Prod.ext hregion (hmade.eq hE), hemits⟩

/-- Clones of as many elements as some sequence holds are not refused by an allocator that grants all. -/
theorem cloning_granted (ht : t.Valid E) (hfits : E.toShape.Fits) {allocator : Allocator}
    (hgrants : ∀ bytes, w.Grants allocator bytes) :
    (cloning E allocator t.items w).Meets (.refusing fun _ _ => False) := by
  have hbytes : Region.bytes? E.toShape t.items.length = some _ := ht.region.bytes?_eq hfits ht.len_le
  have hallocated : (Region.allocate E.toShape allocator t.items.length w).Meets
      (.refusing fun _ _ => False) := by
    apply (Region.allocate_passes E.toShape allocator t.items.length w).refusing
    rintro e w₁ (hnone | ⟨_, hdeclines, _⟩)
    · cases hbytes.symm.trans hnone
    · exact hdeclines (hgrants _)
  have hmake : ∀ k : Nat, Firm (do E.clone (← ofOption .source t.items[k]?) : Act (World σ α) α) :=
    fun _ => (firm_ofOption _ _).bind fun x => E.firm_clone x
  apply refusing_bind
  · exact refusing_bind hallocated fun _ => firm_pure _
  · exact fun staging => (Staging.firm_extend E staging hmake 0 _).bind fun s => s.firm_adopt

/-- A copy is a block of clones under the same handle. -/
theorem copy_eq (t : Sequence α) :
    t.copy E = cloning E t.handle.allocator t.items >>= fun r => pure ⟨r.1, r.2, t.handle⟩ := by
  simp only [copy, cloning, bind_assoc]
  rfl

/-- A copy of exact elements has the same elements and a block of exactly their number. -/
theorem copy_exact (hE : E.Exact) (t : Sequence α) (w : World σ α) :
    (t.copy E w).Meets (.whenDone fun c w' =>
      c = { t with region := .fresh E.toShape t.len w } ∧
        w.Emits (c.region.granting E.toShape t.handle.allocator ++ t.items.map fun x => .cloned x x) w') := by
  rw [copy_eq]
  apply whenDone_bind (cloning_exact hE t.handle.allocator t.items w)
  rintro _ w' ⟨rfl, hw'⟩
  exact ⟨rfl, hw'⟩

/-- A complete copy takes the place of the contents. -/
theorem copyFrom_replaces (hE : E.Exact) (hs : s.Valid E) (hfits : E.toShape.Fits)
    (hforeign : s.handle.Foreign t.handle) (w : World σ α) :
    (copyFrom E t (s, w)).Meets (.whenDone fun _ u => u.1.region = .fresh E.toShape t.len w ∧
      w.Emits ((kind E).replacing t.handle.allocator s t u.1.region) u.2) := by
  rw [copyFrom_foreign hforeign]
  apply whenDone_inWorld (copy_exact hE t w)
  rintro _ w₁ ⟨rfl, hw₁⟩
  simp only [bind_meets, hold_meets, inWorld_meets]
  apply (dispose_done hs hfits w₁).whenDone
  exact fun _ w₂ hw₂ => ⟨rfl, hw₁.trans hw₂⟩

/-- Copies that there is room for are put in the places of the old elements and behind them. -/
theorem assignAll_settled (xs : List α) (hlimit : xs.length ≤ s.len ∨ xs.length ≤ s.maxSize E)
    (hroom : xs.length ≤ s.capacity) (w : World σ α) :
    (assignAll E xs (s, w)).Meets (.settled (storage E) s w) := by
  have hsource : ∀ k : Nat, Aside (ofOption .source xs[k]? : Act (World σ α) α) :=
    fun _ => aside_ofOption _ _
  have hfirm := fun k => (hsource k).firm
  have hkeeps := fun k => (hsource k).keeps (fun _ => id) w
  rw [assignAll, assignMade, held_bind]
  by_cases hshort : xs.length ≤ s.len
  · rw [if_pos hshort]
    exact settled_of_keeps ((firm_overwriteFrom hfirm 0 _).bind fun _ => firm_truncate _)
      ((keeps_overwriteFrom (fun _ => id) hkeeps 0 _).bind fun _ =>
        keeps_truncate (Event.chore_of_unasked fun _ => id) _)
  · rw [if_neg hshort, Capacity.check_of_le (hlimit.resolve_left hshort), ofExcept_bind_ok, if_pos hroom]
    exact settled_of_keeps ((firm_overwriteFrom hfirm 0 _).bind fun _ => firm_storeFrom hfirm _)
      ((keeps_overwriteFrom (fun _ => id) hkeeps 0 _).bind fun _ =>
        keeps_storeFrom (fun _ => id) hkeeps _)

/-- Copies that there is no room for are put together in a new region. -/
theorem assignAll_cloning (xs : List α) (hlen : s.len ≤ s.capacity) (hfull : s.capacity < xs.length)
    (hmax : xs.length ≤ s.maxSize E) (w : World σ α) :
    assignAll E xs (s, w) = (do
      let r ← inWorld (cloning E s.handle.allocator xs)
      replace E r.1 r.2 : SequenceAct σ α Unit) (s, w) := by
  rw [assignAll, assignMade, held_bind, if_neg (Nat.not_le.mpr (hlen.trans_lt hfull)),
    Capacity.check_of_le hmax, ofExcept_bind_ok, if_neg (Nat.not_le.mpr hfull)]
  rfl

/-- What the handle does not admit is refused, unless it takes no more places than the old elements. -/
theorem assignAll_exceeding (xs : List α) (hlong : s.len < xs.length) (hmax : s.maxSize E < xs.length)
    (w : World σ α) : assignAll E xs (s, w) = .refused .capacityExceeded (s, w) := by
  rw [assignAll, assignMade, held_bind, if_neg (Nat.not_le.mpr hlong), Capacity.check_of_lt hmax]
  rfl

/-- Within the capacity an assignment makes no request. -/
theorem assignAll_kept (hroom : t.len ≤ s.capacity) (w : World σ α) :
    (assignAll E t.items (s, w)).Meets (.whenDone fun _ u =>
      u.1.region = s.region ∧ w.Evolves (fun e => e.place? = none) u.2) := by
  by_cases hlimit : t.len ≤ s.len ∨ t.len ≤ s.maxSize E
  · exact (assignAll_settled t.items hlimit hroom w).whenDone fun _ _ => id
  · obtain ⟨hlong, hmax⟩ := not_or.mp hlimit
    rw [assignAll_exceeding t.items (Nat.lt_of_not_le hlong) (Nat.lt_of_not_le hmax)]
    exact trivial

/-- Beyond the capacity an assignment clones into a new block and then replaces the old one. -/
theorem assignAll_grown (hE : E.Exact) (hs : s.Valid E) (hfits : E.toShape.Fits)
    (hfull : s.capacity < t.len) (w : World σ α) :
    (assignAll E t.items (s, w)).Meets (.whenDone fun _ u => u.1.region = .fresh E.toShape t.len w ∧
      w.Emits ((kind E).replacing s.handle.allocator s t u.1.region) u.2) := by
  by_cases hmax : t.len ≤ s.maxSize E
  · rw [assignAll_cloning t.items hs.len_le hfull hmax]
    apply whenDone_inWorld (cloning_exact hE s.handle.allocator t.items w)
    rintro _ w₁ ⟨rfl, hw₁⟩
    simp only [replace, bind_meets, held_meets, hold_meets, inWorld_meets]
    apply (dispose_done hs hfits w₁).whenDone
    exact fun _ w₂ hw₂ => ⟨rfl, hw₁.trans hw₂⟩
  · rw [assignAll_exceeding t.items (hs.len_le.trans_lt hfull) (Nat.lt_of_not_le hmax)]
    exact trivial

/-- Where blocks can pass, or the handle does not come along, the contents are assigned first. -/
theorem copyFrom_own (hown : ¬ s.handle.Foreign t.handle) :
    copyFrom E t (s, w) = (do
      assignAll E t.items
      if t.handle.propagates then
        let s ← held
        hold { s with handle := t.handle } : SequenceAct σ α Unit) (s, w) := by
  rw [copyFrom, held_bind, Handle.comes_eq_false hown]
  rfl

/-- The handle changes nothing about the region. -/
theorem copyFrom_assigns {P : Region → World σ α → Prop} (hown : ¬ s.handle.Foreign t.handle)
    (h : (assignAll E t.items (s, w)).Meets (.whenDone fun _ u => P u.1.region u.2)) :
    (copyFrom E t (s, w)).Meets (.whenDone fun _ u => P u.1.region u.2) := by
  rw [copyFrom_own hown]
  apply whenDone_bind h
  exact fun _ _ hu => ite_meets.mpr ⟨fun _ => hu, fun _ => hu⟩

/-- A copy that succeeds has done what its handles prescribe. -/
theorem copyFrom_copied {m : Multiset (Asset α)} (hE : E.Exact) (hs : Sound E m (s, w))
    (hfits : E.toShape.Fits) :
    (copyFrom E t (s, w)).Meets (.whenDone fun _ u => (kind E).Copied s t w u.1 u.2) := by
  have hcontents : (copyFrom E t (s, w)).Meets _ := copyFrom_meets hs
  by_cases hforeign : s.handle.Foreign t.handle
  · apply (hcontents.and (copyFrom_replaces hE hs.valid hfits hforeign w)).whenDone
    rintro _ ⟨s', w'⟩ ⟨⟨_, hhandle, hlen, _, hmade⟩, hreplaced⟩
    exact .of_foreign hforeign (hE.replaced_eq hmade hlen) (hhandle.trans (if_pos hforeign.1))
      hreplaced.1 hreplaced.2
  · by_cases hroom : t.len ≤ s.capacity
    · have hkept := copyFrom_assigns (E := E) (P := fun region w' => region = s.region ∧
        w.Evolves (fun e => e.place? = none) w') hforeign (assignAll_kept hroom w)
      apply (hcontents.and hkept).whenDone
      rintro _ ⟨s', w'⟩ ⟨⟨_, hhandle, hlen, _, hmade⟩, hregion, hw'⟩
      exact .of_kept hforeign hroom (hE.replaced_eq hmade hlen) hhandle hregion
        (congrArg Region.capacity hregion) hw'
    · have hfull : s.capacity < t.len := Nat.lt_of_not_le hroom
      have hgrown := copyFrom_assigns (P := fun region w' => region = .fresh E.toShape t.len w ∧
        w.Emits ((kind E).replacing s.handle.allocator s t region) w') hforeign
        (assignAll_grown hE hs.valid hfits hfull w)
      apply (hcontents.and hgrown).whenDone
      rintro _ ⟨s', w'⟩ ⟨⟨_, hhandle, hlen, _, hmade⟩, hregion, hw'⟩
      exact .of_grown hforeign hfull (hE.replaced_eq hmade hlen) hhandle hregion [] hw'

/-! ## Copies that are done -/

/-- None of the code that runs when the elements of `t` are copied to `s` faults. -/
structure CopiesCalmly (E : Element σ α) (s t : Sequence α) : Prop where
  clone : ∀ x ∈ t.items, ∀ f, ¬ CanRaise (E.onClone x) f
  overwrite : ∀ old, ∀ x ∈ t.items, ∀ f, ¬ CanRaise (E.onOverwrite old x) f
  drop : ∀ x ∈ s.items, ∀ f, ¬ CanRaise (E.onDrop x) f

/-- No code of faithful elements faults. -/
theorem copiesCalmly_of_faithful (hE : E.Faithful) (s t : Sequence α) : CopiesCalmly E s t :=
  ⟨fun _ _ _ => hE.not_clone, fun _ _ _ _ => hE.not_overwrite, fun _ _ _ => hE.not_drop⟩

/-- Where no clone and no drop faults, no replacement does. -/
theorem CopiesCalmly.not_replaceFaults (h : CopiesCalmly E s t) {olds : List α} {k : Nat} {f : Fault} :
    ¬ E.ReplaceFaults olds t.items k f := by
  rintro ⟨y, hy, hraise⟩
  have hmem : y ∈ t.items := List.mem_of_getElem? hy
  split at hraise
  · exact h.overwrite _ y hmem f hraise
  · exact h.clone y hmem f hraise

/-- With memory granted and the limit kept, an assignment is not refused. -/
theorem assignAll_granted (hs : s.Valid E) (ht : t.Valid E) (hfits : E.toShape.Fits)
    (hgrants : ∀ bytes, w.Grants s.handle.allocator bytes)
    (hlimit : t.len ≤ s.len ∨ t.len ≤ s.maxSize E) :
    (assignAll E t.items (s, w)).Meets (.refusing fun _ _ => False) := by
  by_cases hroom : t.len ≤ s.capacity
  · exact (assignAll_settled t.items hlimit hroom w).refusing fun _ _ => id
  · have hmax : t.len ≤ s.maxSize E := hlimit.resolve_left fun hshort => hroom (hshort.trans hs.len_le)
    rw [assignAll_cloning t.items hs.len_le (Nat.lt_of_not_le hroom) hmax]
    apply refusing_bind (inWorld_meets.mpr (cloning_granted ht hfits hgrants))
    exact fun _ => firm_held.bind fun _ => (firm_hold _).bind fun _ => (firm_dispose _ _).inWorld

/-- Copying is not refused where what it asks for is granted, and where the handle of `s` admits as many
elements as `t` has if that is the one that it asks by. -/
theorem copyFrom_granted (hs : s.Valid E) (ht : t.Valid E) (hfits : E.toShape.Fits)
    (hgrants : ∀ bytes, w.Grants s.handle.allocator bytes)
    (hgrants' : ∀ bytes, w.Grants t.handle.allocator bytes)
    (hlimit : ¬ s.handle.Foreign t.handle → t.len ≤ s.len ∨ t.len ≤ s.maxSize E) :
    (copyFrom E t (s, w)).Meets (.refusing fun _ _ => False) := by
  by_cases hforeign : s.handle.Foreign t.handle
  · rw [copyFrom_foreign hforeign, copy_eq]
    apply refusing_bind
    · exact inWorld_meets.mpr (refusing_bind (cloning_granted ht hfits hgrants') fun _ => firm_pure _)
    · exact fun _ => (firm_hold _).bind fun _ => (firm_dispose _ _).inWorld
  · rw [copyFrom_own hforeign]
    apply refusing_bind (assignAll_granted hs ht hfits hgrants (hlimit hforeign))
    exact fun _ => (firm_held.bind fun _ => firm_hold _).ite (firm_pure _)

/-- With memory granted, the limit kept and no code that faults, a copy succeeds. -/
theorem copyFrom_done {m : Multiset (Asset α)} (hE : E.Exact) (hcalm : CopiesCalmly E s t)
    (hs : Sound E m (s, w)) (ht : t.Valid E) (hfits : E.toShape.Fits)
    (hgrants : ∀ bytes, w.Grants s.handle.allocator bytes)
    (hgrants' : ∀ bytes, w.Grants t.handle.allocator bytes)
    (hlimit : ¬ s.handle.Foreign t.handle → t.len ≤ s.len ∨ t.len ≤ s.maxSize E) :
    (copyFrom E t (s, w)).Meets (.returns fun _ u => (kind E).Copied s t w u.1 u.2) := by
  have hfaults : (copyFrom E t (s, w)).Meets _ := copyFrom_meets hs
  have hcopied := copyFrom_copied (t := t) hE hs hfits
  have hgranted := copyFrom_granted hs.valid ht hfits hgrants hgrants' hlimit
  apply (hfaults.and (hcopied.and hgranted)).imp
  · exact fun _ _ hu => hu.2.1
  · exact fun _ _ hu => hu.2.2
  · rintro f u ⟨⟨_, _, hraise⟩, _⟩
    rcases hraise hfits with ⟨_, _, hfault⟩ | ⟨x, hx, hdrop⟩
    · exact hcalm.not_replaceFaults hfault
    · exact hcalm.drop x hx f hdrop

end Sequence

end Growable
