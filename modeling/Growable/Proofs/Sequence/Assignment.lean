import Growable.Proofs.Sequence.Creation
import Growable.Sequence.Assignment

/-!
# What assignment does

New contents take the place of the old ones, and after a fault the elements that were replaced until then
stand before the old ones that were not.

* `assignMade_meets` — clones of given elements: the `k`-th one overwrites the `k`-th old element, or is
  made anew where there is none or where a larger region is needed (`Element.Replaced`);
* `assignFeed_meets` — the elements of an iterator;
* `copyFrom_meets`, `moveFrom_meets` — the contents of another sequence.
-/

namespace Growable

variable {σ α : Type}

/-- The element is what the `k`-th one of `olds` becomes when a clone of the `k`-th one of `ys`
overwrites it, or such a clone itself where there is no old element. -/
def Element.Replaced (E : Element σ α) (olds ys : List α) (k : Nat) (x : α) : Prop :=
  ∃ y, ys[k]? = some y ∧
    match olds[k]? with
    | some old => CanYield (E.onOverwrite old y) x
    | none => CanYield (E.onClone y) x

/-- What is in the place of the `k`-th one of `olds` after replacing it faulted: there is nothing if there was
no such element. -/
def Element.Remains (E : Element σ α) (olds ys : List α) (k : Nat) (left : List α) : Prop :=
  match olds[k]? with
  | some old => ∃ y code, ys[k]? = some y ∧ left = [E.remains old y code]
  | none => left = []

/-- The fault is raised by replacing the `k`-th element. -/
def Element.ReplaceFaults (E : Element σ α) (olds ys : List α) (k : Nat) (f : Fault) : Prop :=
  ∃ y, ys[k]? = some y ∧
    match olds[k]? with
    | some old => CanRaise (E.onOverwrite old y) f
    | none => CanRaise (E.onClone y) f

/-- Behind the old elements, the new one is a clone. -/
theorem Element.clone_replaces (E : Element σ α) {olds ys : List α} {k : Nat} {y : α}
    (hy : ys[k]? = some y) (hold : olds[k]? = none) :
    Act.Produces 0 (E.Replaced olds ys k) (E.ReplaceFaults olds ys k) (E.clone y) := by
  refine (E.clone_produces y).imp (fun x hx => ⟨y, hy, ?_⟩) (fun f hf => ⟨y, hy, ?_⟩)
  · rw [hold]
    exact hx
  · rw [hold]
    exact hf

/-- The source comes to the elements of a list, by their indexes. -/
def Reads (ys : List α) (source : Nat → Act (World σ α) α) : Prop :=
  ∀ k, k < ys.length → ∃ y, ys[k]? = some y ∧ source k = pure y

/-- A source within its elements is the element itself. -/
theorem Reads.eq_pure {ys : List α} {source : Nat → Act (World σ α) α} (h : Reads ys source) (k : Nat)
    (y : α) (hy : ys[k]? = some y) : source k = pure y := by
  obtain ⟨hk, _⟩ := List.getElem?_eq_some_iff.mp hy
  obtain ⟨z, hz, hread⟩ := h k hk
  rw [hread, Option.some.inj (hy.symm.trans hz)]

/-- Looking the sources up reads them. -/
theorem reads_ofOption (ys : List α) :
    Reads ys (fun k => (Act.ofOption .source ys[k]? : Act (World σ α) α)) := by
  intro k hk
  have hsome : ys[k]? = some ys[k] := List.getElem?_eq_getElem hk
  exact ⟨ys[k], hsome, congrArg (Act.ofOption .source) hsome⟩

/-- One source for every index reads as many copies of it. -/
theorem reads_replicate (count : Nat) (x : α) :
    Reads (List.replicate count x) (fun _ => (pure x : Act (World σ α) α)) := by
  intro k hk
  rw [List.length_replicate] at hk
  exact ⟨x, by rw [List.getElem?_replicate, if_pos hk], rfl⟩

namespace Sequence

variable {E : Element σ α} {s : Sequence α} {w : World σ α} {m : Multiset (Asset α)}
  {ys : List α} {source : Nat → Act (World σ α) α}

/-! ## One slot -/

/-- One element of a sequence, apart from the others. -/
theorem Sound.take_slot {front back : List α} {old : α} (hs : Sound E m (s, w))
    (hitems : s.items = front ++ old :: back) :
    w.Owns ({.element old} + (Asset.elements (front ++ back) +
      (s.region.assets E.toShape + m))) := by
  refine hs.owns_parts.of_eq ?_
  rw [hitems, Asset.elements_append, Asset.elements_append, Asset.elements_cons]
  abel

/-- Another element in the place of the one that was taken. -/
theorem Sound.fill_slot {front back : List α} {old x : α} {w' : World σ α} (hs : s.Valid E)
    (hitems : s.items = front ++ old :: back)
    (h : w'.Owns ({.element x} + (Asset.elements (front ++ back) +
      (s.region.assets E.toShape + m)))) :
    Sound E m ({ s with items := front ++ x :: back }, w') := by
  refine Sound.with_items hs.region ?_ (h.of_eq ?_)
  · have hlen := hs.len_le
    rw [len, hitems, List.length_append, List.length_cons] at hlen
    rwa [List.length_append, List.length_cons]
  · rw [Asset.elements_append, Asset.elements_append, Asset.elements_cons]
    abel

/-- The old element is the one behind the front. -/
theorem getElem?_slot {front back : List α} {old : α} (hitems : s.items = front ++ old :: back) :
    s.items[front.length]? = some old := by
  rw [hitems, List.getElem?_append_right (Nat.le_refl _), Nat.sub_self]
  rfl

/-- Setting its slot leaves the front and the back. -/
theorem set_slot {front back : List α} {old : α} (hitems : s.items = front ++ old :: back)
    (x : α) : s.items.set front.length x = front ++ x :: back := by
  rw [hitems, List.set_append_right _ _ (Nat.le_refl _), Nat.sub_self, List.set_cons_zero]

/-! ## From given elements -/

/-- The elements behind `front` are overwritten one by one, up to a fault. -/
theorem overwriteFrom_meets {olds front : List α} (count : Nat) (hs : Sound E m (s, w))
    (hsource : Reads ys source) (hitems : s.items = front ++ olds.drop front.length)
    (hold : front.length + count ≤ olds.length) (hnew : front.length + count ≤ ys.length) :
    (overwriteFrom E source front.length count (s, w)).Meets (soundly E m
      ⟨fun _ t => ∃ xs, xs.length = count ∧ Staging.Made (E.Replaced olds ys) front.length xs ∧
          t = { s with items := front ++ xs ++ olds.drop (front.length + count) },
        fun _ _ => False,
        fun f t => ∃ made left, made.length < count ∧
          Staging.Made (E.Replaced olds ys) front.length made ∧
          E.ReplaceFaults olds ys (front.length + made.length) f ∧
          E.Remains olds ys (front.length + made.length) left ∧
          t = { s with items := front ++ made ++ left ++ olds.drop (front.length + made.length + 1) }⟩) := by
  induction count generalizing s w front with
  | zero =>
      exact ⟨hs, [], rfl, Staging.made_nil, by rw [List.append_nil, Nat.add_zero, ← hitems]⟩
  | succ count ih =>
      obtain ⟨y, hy, hread⟩ := hsource front.length (by omega)
      have hlt : front.length < olds.length := by omega
      have holds : olds[front.length]? = some olds[front.length] := List.getElem?_eq_getElem hlt
      rw [List.drop_eq_getElem_cons hlt] at hitems
      simp only [overwriteFrom, Act.bind_meets, Act.inWorld_meets, hread, Act.pure_meets, inSlot_meets,
        getElem?_slot hitems, set_slot hitems]
      refine ⟨fun old hsome => ?_, fun hnone => by cases hnone⟩
      obtain rfl := Option.some.inj hsome
      refine (E.overwrite_meets olds[front.length] y (hs.take_slot hitems)).imp ?_
        (fun _ _ => False.elim) ?_
      · intro _ u hx
        obtain ⟨x, w'⟩ := u
        have hx' : E.Replaced olds ys front.length x := ⟨y, hy, by rw [holds]; exact hx.1⟩
        have hs' := Sound.fill_slot hs.valid hitems hx.2
        have hlength : (front ++ [x]).length = front.length + 1 := by simp
        have hprefix : front ++ x :: olds.drop (front.length + 1)
            = (front ++ [x]) ++ olds.drop (front ++ [x]).length := by simp
        have hnext := ih hs' hprefix (by omega) (by omega)
        rw [hlength] at hnext
        refine soundly_imp hnext ?_ (fun _ _ => id) ?_
        · intro _ t ht
          obtain ⟨xs, hlen, hxs, ht⟩ := ht
          refine ⟨x :: xs, by simp [hlen], .cons hx' hxs, ht.trans ?_⟩
          rw [List.append_assoc front, List.singleton_append, Nat.add_right_comm, Nat.add_assoc]
        · intro f t hf
          obtain ⟨made, left, hlen, hmade, hf, hleft, ht⟩ := hf
          have hindex : front.length + 1 + made.length = front.length + (x :: made).length := by
            rw [List.length_cons, Nat.add_right_comm, Nat.add_assoc]
          rw [hindex] at hf hleft ht
          refine ⟨x :: made, left, by simpa using hlen, .cons hx' hmade, hf, hleft, ht.trans ?_⟩
          rw [List.append_assoc front, List.singleton_append]
      · intro f u hf
        obtain ⟨left, w'⟩ := u
        obtain ⟨hraise, hleft, h'⟩ := hf
        dsimp only at hleft h'
        refine ⟨hraise.isRaised.sanctioned _, Sound.fill_slot hs.valid hitems h', fun _ =>
          ⟨[], [left], Nat.succ_pos count, Staging.made_nil, ?_, ?_, ?_⟩⟩
        · exact ⟨y, hy, by rw [List.length_nil, Nat.add_zero, holds]; exact hraise⟩
        · rw [Element.Remains, List.length_nil, Nat.add_zero, holds]
          exact ⟨y, w.code, hy, by rw [hleft]⟩
        · rw [List.append_nil, List.length_nil, Nat.add_zero, List.append_assoc, List.singleton_append]

/-- Clones are put behind the elements one by one, up to a fault. -/
theorem storeFrom_meets {olds : List α} (count : Nat) (hs : Sound E m (s, w))
    (hsource : Reads ys source) (hold : olds.length ≤ s.len)
    (hroom : s.len + count ≤ s.capacity) (hnew : s.len + count ≤ ys.length) :
    (storeFrom E source count (s, w)).Meets (soundly E m
      ⟨fun _ t => ∃ xs, xs.length = count ∧ Staging.Made (E.Replaced olds ys) s.len xs ∧
          t = { s with items := s.items ++ xs },
        fun _ _ => False,
        fun f t => ∃ made, made.length < count ∧ Staging.Made (E.Replaced olds ys) s.len made ∧
          E.ReplaceFaults olds ys (s.len + made.length) f ∧
          t = { s with items := s.items ++ made }⟩) := by
  induction count generalizing s w with
  | zero => exact ⟨hs, [], rfl, Staging.made_nil, by rw [List.append_nil]⟩
  | succ count ih =>
      obtain ⟨y, hy, hread⟩ := hsource s.len (by omega)
      simp only [storeFrom, Act.bind_meets, Act.held_meets, Act.inWorld_meets, hread,
        Act.pure_meets]
      refine (E.clone_replaces hy (List.getElem?_eq_none hold) w _
        (hs.owns.of_eq (zero_add _).symm)).imp ?_ (fun _ _ => False.elim) ?_
      · intro x w' hx
        simp only [store, Act.bind_meets, Act.held_meets, Act.require_meets, Act.hold_meets]
        refine ⟨fun _ => ?_, fun hfull => absurd (by omega) hfull⟩
        have hlength : (s.items ++ [x]).length = s.len + 1 := by simp [len]
        have hlonger : { s with items := s.items ++ [x] }.len = s.len + 1 := hlength
        have hs' : Sound E m ({ s with items := s.items ++ [x] }, w') := by
          refine Sound.with_items hs.valid.region (by omega) (hx.2.of_eq ?_)
          rw [assets, Asset.elements_append, Asset.elements_cons, Asset.elements_nil]
          abel
        have hmore : { s with items := s.items ++ [x] }.len + count ≤ s.capacity := by omega
        have hnext := ih hs' (by omega) hmore (by omega)
        rw [hlonger] at hnext
        refine soundly_imp hnext ?_ (fun _ _ => id) ?_
        · intro _ t ht
          obtain ⟨xs, hlen, hxs, ht⟩ := ht
          refine ⟨x :: xs, by simp [hlen], .cons hx.1 hxs, ht.trans ?_⟩
          rw [List.append_assoc, List.singleton_append]
        · intro f t hf
          obtain ⟨made, hlen, hmade, hf, ht⟩ := hf
          refine ⟨x :: made, by simpa using hlen, .cons hx.1 hmade, ?_, ht.trans ?_⟩
          · rwa [List.length_cons, ← Nat.add_assoc, Nat.add_right_comm]
          · rw [List.append_assoc, List.singleton_append]
      · intro f w' hf
        exact ⟨hf.2.1.sanctioned _, ⟨hs.valid, hf.2.2⟩, fun _ => ⟨[], Nat.succ_pos count,
          Staging.made_nil, hf.1, by rw [List.append_nil]⟩⟩

/-- The elements that are overwritten by `count` new ones: none if a larger region is needed. -/
def overwritten (s : Sequence α) (count : Nat) : List α :=
  if count ≤ s.capacity then s.items else []

/-- The claim that the contents are replaced by clones of `ys`.  When one of these faults after the
elements `made`, they stand before what the fault left in the next place and the old elements behind it,
unless a larger region was needed; and when a drop of an old element faults, all new elements are there. -/
def assigned (E : Element σ α) (s : Sequence α) (ys : List α) : Post (Sequence α) Unit :=
  let replaced := E.Replaced (s.overwritten ys.length) ys
  ⟨fun _ t => t.handle = s.handle ∧ t.items.length = ys.length ∧ Staging.Made replaced 0 t.items,
    fun e t => e.IsLack ∧ t = s,
    fun f t =>
      (∃ made left, made.length < ys.length ∧ Staging.Made replaced 0 made ∧
        E.ReplaceFaults (s.overwritten ys.length) ys made.length f ∧
        E.Remains (s.overwritten ys.length) ys made.length left ∧
        t = { s with items :=
          if ys.length ≤ s.capacity then made ++ left ++ s.items.drop (made.length + 1) else s.items }) ∨
      (t.handle = s.handle ∧ t.items.length = ys.length ∧ Staging.Made replaced 0 t.items ∧
        ∃ x ∈ s.items, CanRaise (E.onDrop x) f)⟩

/-- An assignment overwrites and removes, or overwrites and appends, or builds a new block. -/
theorem assignMade_eq (count : Nat) (source : Nat → Act (World σ α) α) :
    assignMade E count source = (do
      let s ← Act.held
      if count ≤ s.len then
        overwriteFrom E source 0 count
        truncate E count
      else
        Act.ofExcept (Capacity.check count (s.maxSize E))
        if count ≤ s.capacity then
          overwriteFrom E source 0 s.len
          storeFrom E source (count - s.len)
        else
          let r ← Act.inWorld (Staging.assemble E s.handle.allocator count [] []
            (Staging.extend E (fun k => do E.clone (← source k)) 0 count))
          replace E r.1 r.2) := by
  simp only [assignMade, Staging.assemble_new]

/-- The first `count` elements are overwritten one by one, up to a fault, which is one of the assignment. -/
theorem overwriteFirst_meets {count : Nat} (hs : Sound E m (s, w)) (hsource : Reads ys source)
    (hold : count ≤ s.len) (hnew : count ≤ ys.length) (hroom : ys.length ≤ s.capacity) :
    (overwriteFrom E source 0 count (s, w)).Meets (soundly E m
      ⟨fun _ t => ∃ xs, xs.length = count ∧ Staging.Made (E.Replaced (s.overwritten ys.length) ys) 0 xs ∧
          t = { s with items := xs ++ s.items.drop count },
        fun _ _ => False, (s.assigned E ys).faulted⟩) := by
  have hover : s.overwritten ys.length = s.items := if_pos hroom
  have hitems : s.items = [] ++ s.items.drop ([] : List α).length := rfl
  have hzero : ([] : List α).length + count = count := Nat.zero_add count
  refine soundly_imp (overwriteFrom_meets count hs hsource hitems (hzero.trans_le hold)
    (hzero.trans_le hnew)) ?_ (fun _ _ => id) ?_
  · rintro _ t ⟨xs, hlen, hxs, ht⟩
    rw [hover]
    exact ⟨xs, hlen, hxs, by rw [ht, List.nil_append, hzero]⟩
  · rintro f t ⟨made, left, hlen, hmade, hf, hleft, ht⟩
    rw [List.length_nil, Nat.zero_add] at hf hleft ht
    rw [assigned, hover]
    refine .inl ⟨made, left, hlen.trans_le hnew, hmade, hf, hleft, ?_⟩
    rw [if_pos hroom, ht, List.nil_append]

/-- As many elements as there are, or fewer, overwrite the first ones; the others are dropped. -/
theorem overwrite_truncate_meets (hs : Sound E m (s, w)) (hsource : Reads ys source)
    (hshort : ys.length ≤ s.len) :
    ((do overwriteFrom E source 0 ys.length; truncate E ys.length : SequenceAct σ α Unit)
      (s, w)).Meets (soundly E m (s.assigned E ys)) := by
  have hroom : ys.length ≤ s.capacity := Nat.le_trans hshort hs.valid.len_le
  rw [Act.bind_meets]
  refine (overwriteFirst_meets hs hsource hshort (Nat.le_refl _) hroom).imp ?_
    (fun _ _ hu => hu.2.elim) (fun _ _ => id)
  rintro _ ⟨t, w'⟩ ⟨ht, xs, hlen, hxs, hsame⟩
  dsimp only at hsame
  have htake : t.items.take ys.length = xs := by rw [hsame, ← hlen, List.take_left]
  have hdrop : t.items.drop ys.length = s.items.drop ys.length := by
    rw [hsame, ← hlen, List.drop_left]
  refine soundly_imp (truncate_meets ys.length ht) ?_ (fun _ _ => False.elim) ?_
  · rintro _ t' rfl
    rw [htake]
    exact ⟨hsame ▸ rfl, hlen, hxs⟩
  · rintro f t' ⟨rfl, x, hx, hraise⟩
    rw [htake]
    refine .inr ⟨hsame ▸ rfl, hlen, hxs, x, ?_, hraise⟩
    rw [hdrop] at hx
    exact List.mem_of_mem_drop hx

/-- More elements than there are overwrite all of them, and the others are put behind. -/
theorem overwrite_store_meets (hs : Sound E m (s, w)) (hsource : Reads ys source)
    (hlong : ¬ ys.length ≤ s.len) (hroom : ys.length ≤ s.capacity) :
    ((do overwriteFrom E source 0 s.len; storeFrom E source (ys.length - s.len) :
      SequenceAct σ α Unit) (s, w)).Meets (soundly E m (s.assigned E ys)) := by
  have hover : s.overwritten ys.length = s.items := if_pos hroom
  rw [Act.bind_meets]
  refine (overwriteFirst_meets hs hsource (Nat.le_refl _) (by omega) hroom).imp ?_
    (fun _ _ hu => hu.2.elim) (fun _ _ => id)
  rintro _ ⟨t, w'⟩ ⟨ht, xs, hlen, hxs, hsame⟩
  dsimp only at hsame
  rw [hover] at hxs
  have hitems : t.items = xs := by rw [hsame, len, List.drop_length, List.append_nil]
  have htlen : t.len = xs.length := by rw [len, hitems]
  have hcapacity : t.capacity = s.capacity := hsame ▸ rfl
  have hold : s.items.length ≤ t.len := htlen.trans hlen |>.ge
  have hstore := storeFrom_meets (ys.length - s.len) ht hsource hold (by omega) (by omega)
  refine soundly_imp hstore ?_ (fun _ _ => False.elim) ?_
  · rintro _ t' ⟨zs, hzlen, hzs, rfl⟩
    refine ⟨hsame ▸ rfl, ?_, ?_⟩
    · rw [List.length_append, hitems, hlen, hzlen]
      omega
    · rw [hover, hitems]
      exact hxs.append (by rwa [Nat.zero_add, ← htlen])
  · rintro f t' ⟨made, hlt, hmade, hf, rfl⟩
    have hxmade : (xs ++ made).length = t.len + made.length := by rw [List.length_append, htlen]
    have hbehind : s.items.length ≤ (xs ++ made).length := by
      rw [hxmade]
      exact hold.trans (Nat.le_add_right _ _)
    refine .inl ⟨xs ++ made, [], by omega, ?_, ?_, ?_, ?_⟩
    · rw [hover]
      exact hxs.append (by rwa [Nat.zero_add, ← htlen])
    · rw [hover, hxmade]
      exact hf
    · rw [hover, Element.Remains, List.getElem?_eq_none hbehind]
    · rw [if_pos hroom, hitems, List.drop_eq_nil_of_le (Nat.le_succ_of_le hbehind), List.append_nil,
        List.append_nil, hsame]

/-- However an assignment ends, the contents are accounted for, and a success holds the new
elements. -/
theorem assignMade_meets (hs : Sound E m (s, w)) (hsource : Reads ys source) :
    (assignMade E ys.length source (s, w)).Meets (soundly E m (s.assigned E ys)) := by
  rw [assignMade_eq]
  simp only [Act.bind_meets, Act.held_meets, Act.ite_meets, Act.ofExcept_meets]
  refine ⟨fun hshort => ?_, fun hlong => ⟨fun _ _ => ⟨fun hroom => ?_, fun hfull => ?_⟩, ?_⟩⟩
  · exact Act.bind_meets.mp (overwrite_truncate_meets hs hsource hshort)
  · exact Act.bind_meets.mp (overwrite_store_meets hs hsource hlong hroom)
  · have hover : s.overwritten ys.length = [] := if_neg hfull
    have hmake : ∀ k < ys.length, Act.Produces 0 (E.Replaced [] ys k) (E.ReplaceFaults [] ys k)
        (do E.clone (← source k)) := by
      intro k hk
      obtain ⟨y, hy, hread⟩ := hsource k hk
      rw [hread, pure_bind]
      exact E.clone_replaces hy rfl
    rw [Act.inWorld_meets]
    refine (Staging.assemble_meets s.handle.allocator (Staging.extend_constructs hmake) (by simp)
      (hs.owns.of_eq (zero_add _).symm)).imp ?_ ?_ ?_
    · intro r w' hr
      obtain ⟨hregion, hcapacity, xs, hlen, hxs, hitems, h'⟩ := hr
      rw [List.nil_append, List.append_nil] at hitems
      have hfits : r.2.length ≤ r.1.capacity := hitems ▸ hlen.trans_le hcapacity.ge
      refine soundly_imp (replace_meets hs.valid hregion hfits (by rwa [hitems])) ?_
        (fun _ _ => False.elim) ?_
      · intro _ t ht
        subst ht
        exact ⟨rfl, hitems ▸ hlen, by rw [hover, hitems]; exact hxs⟩
      · intro f t hf
        obtain ⟨rfl, hdrop⟩ := hf
        exact .inr ⟨rfl, hitems ▸ hlen, by rw [hover, hitems]; exact hxs, hdrop⟩
    · intro e w' he
      exact ⟨⟨hs.valid, he.2.of_eq (zero_add _)⟩, he.1, rfl⟩
    · intro f w' hf
      obtain ⟨⟨made, hlen, hmade, hf⟩, hraised, h'⟩ := hf
      refine ⟨hraised.sanctioned _, ⟨hs.valid, h'⟩, fun _ => .inl ⟨made, [], hlen, ?_, ?_, ?_, ?_⟩⟩
      · rw [hover]
        exact hmade
      · rw [hover]
        exact hf
      · rw [hover]
        rfl
      · rw [if_neg hfull]
  · exact fun e he => ⟨hs, Capacity.eq_of_check_eq_error he ▸ trivial, rfl⟩

theorem assignCopies_meets (count : Nat) (x : α) (hs : Sound E m (s, w)) :
    (assignCopies E count x (s, w)).Meets
      (soundly E m (s.assigned E (List.replicate count x))) := by
  have hassign := assignMade_meets hs (reads_replicate count x)
  rwa [List.length_replicate] at hassign

theorem assignAll_meets (xs : List α) (hs : Sound E m (s, w)) :
    (assignAll E xs (s, w)).Meets (soundly E m (s.assigned E xs)) :=
  assignMade_meets hs (reads_ofOption xs)

/-- A new sequence overwrites nothing: its elements are clones of the given ones. -/
theorem ofList_meets (xs : List α) (handle : Handle) (h : w.Owns m) :
    (ofList E xs handle w).Meets (created E m
      (fun s => s.handle = handle ∧ s.items.length = xs.length ∧
        Staging.Made (E.ClonedFrom xs) 0 s.items)
      fun f => ∃ k, E.CloneFaults xs k f) := by
  have hover : (empty handle : Sequence α).overwritten xs.length = [] := by
    unfold overwritten
    split <;> rfl
  simp only [ofList, Act.bind_meets, Act.pure_meets]
  refine (build_meets handle (assignAll_meets xs (sound_empty handle h))).imp ?_ ?_ ?_
  · intro r w' hr
    obtain ⟨hs, hhandle, hlen, hmade⟩ := hr
    rw [hover] at hmade
    exact ⟨hs, hhandle, hlen, hmade⟩
  · intro e w' he
    obtain ⟨h', _, hlack, _⟩ := he
    exact ⟨hlack, h'⟩
  · intro f w' hf
    refine ⟨hf.1, hf.2.1, fun hfits => ?_⟩
    rcases hf.2.2 hfits with hwork | hdrop
    · rcases hwork with ⟨t, hclone | hdrop⟩
      · obtain ⟨made, _, _, _, hf, _⟩ := hclone
        rw [hover] at hf
        exact ⟨_, hf⟩
      · obtain ⟨_, _, _, x, hx, _⟩ := hdrop
        cases hx
    · obtain ⟨t, ⟨_, _, hsame⟩, x, hx, _⟩ := hdrop
      rw [hsame] at hx
      cases hx

/-! ## From an iterator -/

/-- An element that was received takes the place of another one, which is gone even if its drop
faults. -/
theorem supplant_meets {front back : List α} {old x : α} (hs : s.Valid E)
    (hitems : s.items = front ++ old :: back) (h : w.Owns ({.element x} + (s.assets E + m))) :
    (supplant E front.length x (s, w)).Meets (soundly E m
      ⟨fun _ t => t = { s with items := front ++ x :: back }, fun _ _ => False,
        fun f t => t = { s with items := front ++ x :: back } ∧ CanRaise (E.onDrop old) f⟩) := by
  simp only [supplant, Act.bind_meets, Act.held_meets, getElem?_slot hitems, set_slot hitems,
    Act.ofOption_meets, Act.hold_meets, Act.inWorld_meets]
  refine ⟨fun y hy => ?_, fun hnone => by cases hnone⟩
  obtain rfl := Option.some.inj hy
  have howns : w.Owns ({.element old} + ({.element x} + (Asset.elements (front ++ back) +
      (s.region.assets E.toShape + m)))) := by
    refine h.of_eq ?_
    rw [assets, hitems, Asset.elements_append, Asset.elements_append, Asset.elements_cons]
    abel
  refine (E.drop_meets false old howns).imp ?_ (fun _ _ => False.elim) ?_
  · exact fun _ w' h' => ⟨Sound.fill_slot hs hitems h', rfl⟩
  · exact fun f w' h' => ⟨h'.1.isRaised.sanctioned _, Sound.fill_slot hs hitems h'.2.2,
      fun _ => ⟨rfl, h'.1⟩⟩

/-- The claim that what an iterator yields comes behind the elements `made`, in the place of the old
elements there. -/
def supplanted (E : Element σ α) (s : Sequence α) (olds made : List α) (feed : Feed α) :
    Post (Sequence α) Unit :=
  ⟨fun _ t => feed.raised? = none ∧ t.handle = s.handle ∧ t.items = made ++ feed.members,
    fun e t => e.IsLack ∧ t.handle = s.handle ∧ ∃ n, t.items = made ++ feed.members.take n,
    fun f t => t.handle = s.handle ∧
      ((∃ message, feed.raised? = some message ∧ f = .raised message ∧
          t.items = made ++ feed.members ++ olds.drop (made.length + feed.members.length)) ∨
        ∃ x ∈ feed.members ++ olds, CanRaise (E.onDrop x) f)⟩

/-- One more element of an iterator stands in its place. -/
theorem supplanted_yield {olds made : List α} {x : α} {rest : Feed α} {t : Sequence α}
    {o : Outcome (Sequence α × World σ α) Unit} (hhandle : t.handle = s.handle)
    (h : o.Meets (soundly E m (t.supplanted E olds (made ++ [x]) rest))) :
    o.Meets (soundly E m (s.supplanted E olds made (.yield x rest))) := by
  have happend : ∀ xs, made ++ [x] ++ xs = made ++ x :: xs := by
    intro xs
    rw [List.append_assoc, List.singleton_append]
  have hlength : (made ++ [x]).length + rest.members.length
      = made.length + (Feed.yield x rest).members.length := by
    rw [Feed.members, List.length_append, List.length_singleton, List.length_cons]
    omega
  refine soundly_imp h ?_ ?_ ?_
  · intro _ t' ht'
    exact ⟨ht'.1, ht'.2.1.trans hhandle, ht'.2.2.trans (happend _)⟩
  · intro e t' ht'
    obtain ⟨hlack, hhandle', n, hn⟩ := ht'
    exact ⟨hlack, hhandle'.trans hhandle, n + 1, hn.trans (happend _)⟩
  · intro f t' ht'
    rcases ht' with ⟨hhandle', hraise | hdrop⟩
    · obtain ⟨message, hraised, hf, hitems⟩ := hraise
      rw [hlength, happend] at hitems
      exact ⟨hhandle'.trans hhandle, .inl ⟨message, hraised, hf, hitems⟩⟩
    · obtain ⟨y, hy, hf⟩ := hdrop
      exact ⟨hhandle'.trans hhandle, .inr ⟨y, List.mem_cons_of_mem x hy, hf⟩⟩

/-- Once an iterator has come to its end, the old elements that are left are dropped. -/
theorem supplantFrom_finish_meets {olds made : List α} (hs : Sound E m (s, w))
    (hitems : s.items = made ++ olds.drop made.length) :
    (supplantFrom E olds.length made.length .finish (s, w)).Meets
      (soundly E m (s.supplanted E olds made .finish)) := by
  simp only [supplantFrom, Act.bind_meets, Act.inWorld_meets]
  apply (World.record_meets rfl rfl hs.owns).of_returns
  intro _ w' h'
  have hs' : Sound E m (s, w') := ⟨hs.valid, h'⟩
  simp only [Act.ite_meets, Act.pure_meets]
  constructor
  · intro _
    have htake : s.items.take made.length = made := by rw [hitems, List.take_left]
    apply soundly_imp (truncate_meets made.length hs')
    · intro _ t ht
      subst ht
      exact ⟨rfl, rfl, htake.trans (List.append_nil made).symm⟩
    · exact fun _ _ => False.elim
    · intro f t ht
      obtain ⟨rfl, x, hx, hraise⟩ := ht
      rw [hitems, List.drop_left] at hx
      exact ⟨rfl, .inr ⟨x, List.mem_of_mem_drop hx, hraise⟩⟩
  · intro hover
    refine ⟨hs', rfl, rfl, hitems.trans ?_⟩
    rw [List.drop_eq_nil_of_le (Nat.le_of_not_lt hover)]
    rfl

theorem supplantFrom_meets {olds made : List α} (feed : Feed α) (hs : Sound E m (s, w))
    (hitems : s.items = made ++ olds.drop made.length) :
    (supplantFrom E olds.length made.length feed (s, w)).Meets
      (soundly E m (s.supplanted E olds made feed)) := by
  induction feed generalizing s w made with
  | finish => exact supplantFrom_finish_meets hs hitems
  | raise message =>
      simp only [supplantFrom, Act.bind_meets, Act.inWorld_meets]
      refine (World.record_meets rfl rfl hs.owns).of_returns ?_
      intro _ w' h'
      refine ⟨Fault.IsRaised.sanctioned ⟨message, rfl⟩ _, ⟨hs.valid, h'⟩, fun _ => ⟨rfl, .inl ?_⟩⟩
      refine ⟨message, rfl, rfl, hitems.trans ?_⟩
      rw [Feed.members, List.append_nil, List.length_nil, Nat.add_zero]
  | yield x rest ih =>
      have hlength : (made ++ [x]).length = made.length + 1 := by simp
      simp only [supplantFrom, Act.bind_meets, Act.inWorld_meets]
      refine (World.record_meets rfl rfl hs.owns).of_returns ?_
      intro _ w₁ h₁
      have hs₁ : Sound E m (s, w₁) := ⟨hs.valid, h₁⟩
      simp only [Act.bind_meets, Act.ite_meets, Act.inWorld_meets]
      -- Old elements are replaced while there are some, and new ones are pushed behind them.
      constructor
      · intro hlt
        rw [List.drop_eq_getElem_cons hlt] at hitems
        refine (World.receive_meets x hs₁.owns).of_returns ?_
        intro _ w₂ h₂
        refine (supplant_meets hs.valid hitems h₂).imp ?_ (fun _ _ hu => hu.2.elim) ?_
        · intro _ u hu
          obtain ⟨t, w₃⟩ := u
          obtain ⟨ht, hsame⟩ := hu
          dsimp only at hsame
          have hnext : (supplantFrom E olds.length (made ++ [x]).length rest (t, w₃)).Meets
              (soundly E m (t.supplanted E olds (made ++ [x]) rest)) :=
            ih ht (by rw [hsame, hlength, List.append_assoc, List.singleton_append])
          rw [hlength] at hnext
          exact supplanted_yield (hsame ▸ rfl) hnext
        · intro f u hu
          refine ⟨hu.1, hu.2.1, fun hfits => ?_⟩
          obtain ⟨hsame, hraise⟩ := hu.2.2 hfits
          exact ⟨hsame ▸ rfl, .inr ⟨_, List.mem_append_right _ (List.getElem_mem hlt), hraise⟩⟩
      · intro hover
        have hnil : ∀ k, made.length ≤ k → olds.drop k = [] := fun k hk =>
          List.drop_eq_nil_of_le (by omega)
        rw [hnil _ (Nat.le_refl _), List.append_nil] at hitems
        refine (push_meets x hs₁).imp ?_ ?_ ?_
        · intro _ u hu
          obtain ⟨t, w₂⟩ := u
          obtain ⟨ht, hhandle, hpushed⟩ := hu
          have hnext : (supplantFrom E olds.length (made ++ [x]).length rest (t, w₂)).Meets
              (soundly E m (t.supplanted E olds (made ++ [x]) rest)) :=
            ih ht (hpushed.trans (by rw [hitems, hnil _ (by omega), List.append_nil]))
          rw [hlength] at hnext
          exact supplanted_yield hhandle hnext
        · intro e u hu
          obtain ⟨ht, hlack, hsame⟩ := hu
          exact ⟨ht, hlack, hsame ▸ rfl, 0, hsame ▸ hitems.trans (List.append_nil made).symm⟩
        · intro f u hu
          refine ⟨hu.1, hu.2.1, fun hfits => ?_⟩
          obtain ⟨hraise, hsame⟩ := hu.2.2 hfits
          exact ⟨hsame ▸ rfl, .inr ⟨x, List.mem_append_left _ List.mem_cons_self, hraise⟩⟩

theorem assignFeed_meets (feed : Feed α) (hs : Sound E m (s, w)) :
    (assignFeed E feed (s, w)).Meets (soundly E m (s.supplanted E s.items [] feed)) := by
  have hitems : s.items = [] ++ s.items.drop ([] : List α).length := rfl
  exact supplantFrom_meets feed hs hitems

end Sequence

end Growable
