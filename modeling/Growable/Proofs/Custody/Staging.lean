import Growable.Proofs.Custody.Primitive
import Growable.Staging

/-!
# Custody of what is being built

A staging area answers for its region and for the elements constructed in it.  While it is extended, it
holds what was produced so far; when making an element faults, all of it is gone from custody, and the
region with it (`Staging.extend_meets`).  The checks of a staging area hold as long as it stays within
its region.
-/

namespace Growable.Staging

variable {σ α : Type} (E : Element σ α)

/-- What a staging area answers for. -/
def assets (s : Staging α) : Multiset (Asset α) :=
  Asset.elements s.elements + s.region.assets E.toShape

/-- The constructed elements lie within a region that can be released. -/
structure Valid (s : Staging α) : Prop where
  region : s.region.Valid E.toShape
  stop_le : s.stop ≤ s.region.capacity

variable {E} {s : Staging α} {w : World σ α} {m : Multiset (Asset α)}

/-- A staging that comes out owns a region of the capacity asked for and holds nothing yet. -/
theorem allocate_meets (allocator : Allocator) (capacity : Nat) (w : World σ α) :
    (allocate E allocator capacity w).Meets
      ⟨fun s w' => s.Valid E ∧ s.start = 0 ∧ s.elements = [] ∧ s.region.capacity = capacity ∧
          w.Becomes 0 w' (s.assets E),
        fun e w' => e.IsLack ∧ w.Becomes 0 w' 0, fun _ _ => False⟩ := by
  apply Act.bind_meets.mpr
  refine (Region.allocate_meets E.toShape allocator capacity w).imp ?_ (fun _ _ => id)
    (fun _ _ => id)
  intro region w' hr
  obtain ⟨hregion, hcapacity, hgranted⟩ := hr
  exact ⟨⟨hregion, Nat.zero_le _⟩, rfl, rfl, hcapacity, by simpa [assets] using hgranted⟩

/-- Everything that a discarded staging area answered for is gone. -/
theorem discard_meets (hs : s.Valid E) (unwinding : Bool) (h : w.Owns (s.assets E + m)) :
    (s.discard E unwinding w).Meets (.always fun w' => w'.Owns m) :=
  (E.dropAll_release_meets hs.region s.allocator unwinding s.elements
    (h.of_eq (by rw [assets, add_assoc]))).imp (fun _ _ => id) (fun _ _ => False.elim)
    (fun _ _ hm => hm.2.1)

/-- Only an empty staging takes a start slot, and only one within its region. -/
@[simp] theorem seek_meets {slot : Nat} {post : Post (World σ α) (Staging α)} :
    (s.seek slot w).Meets post ↔
      (s.elements = [] → (slot ≤ s.region.capacity → post.done { s with start := slot } w) ∧
        (¬ slot ≤ s.region.capacity → post.faulted (.broken .seek) w)) ∧
      (¬ s.elements = [] → post.faulted (.broken .seek) w) := by
  simp only [seek, Act.bind_meets, Act.require_meets, Act.pure_meets]

/-- Elements go in front if there are slots enough before the start. -/
@[simp] theorem moveBefore_meets {existing : List α} {post : Post (World σ α) (Staging α)} :
    (s.moveBefore existing w).Meets post ↔
      (existing.length ≤ s.start → post.done { s with
          start := s.start - existing.length, elements := existing ++ s.elements } w) ∧
      (¬ existing.length ≤ s.start → post.faulted (.broken .underflow) w) := by
  simp only [moveBefore, Act.bind_meets, Act.require_meets, Act.pure_meets]

/-- Elements go behind if there are slots enough after the stop. -/
@[simp] theorem moveAfter_meets {existing : List α} {post : Post (World σ α) (Staging α)} :
    (s.moveAfter existing w).Meets post ↔
      (existing.length ≤ s.region.capacity - s.stop →
        post.done { s with elements := s.elements ++ existing } w) ∧
      (¬ existing.length ≤ s.region.capacity - s.stop → post.faulted (.broken .overflow) w) := by
  simp only [moveAfter, Act.bind_meets, Act.require_meets, Act.pure_meets]

/-- Only a staging without a hole in front becomes the block of a sequence. -/
@[simp] theorem adopt_meets {post : Post (World σ α) (Region × List α)} :
    (s.adopt w).Meets post ↔
      (s.start = 0 → post.done (s.region, s.elements) w) ∧
      (¬ s.start = 0 → post.faulted (.broken .hole) w) := by
  simp only [adopt, Act.bind_meets, Act.require_meets, Act.pure_meets]

/-! ## Elements made one after the other -/

/-- The elements satisfy `P`, numbered from `k` on. -/
def Made (P : Nat → α → Prop) (k : Nat) (xs : List α) : Prop :=
  ∀ i x, xs[i]? = some x → P (k + i) x

section Made

variable {P : Nat → α → Prop} {k : Nat} {x : α} {xs : List α}

theorem made_nil : Made P k [] := by
  intro i x h
  cases h

/-- The first element counts from `k`, the others from the next number. -/
theorem Made.cons (hx : P k x) (hxs : Made P (k + 1) xs) : Made P k (x :: xs) := by
  intro i y hy
  cases i with
  | zero => exact Option.some.inj hy ▸ hx
  | succ i => exact Nat.succ_add_eq_add_succ k i ▸ hxs i y hy

theorem made_singleton (hx : P k x) : Made P k [x] := .cons hx made_nil

theorem Made.head (h : Made P k (x :: xs)) : P k x := h 0 x rfl

theorem Made.tail (h : Made P k (x :: xs)) : Made P (k + 1) xs := by
  intro i y hy
  have hnext := h (i + 1) y hy
  rwa [Nat.add_left_comm, Nat.add_comm i] at hnext

theorem Made.append {ys : List α} (hxs : Made P k xs) (hys : Made P (k + xs.length) ys) :
    Made P k (xs ++ ys) := by
  intro i y hy
  by_cases hlt : i < xs.length
  · rw [List.getElem?_append_left hlt] at hy
    exact hxs i y hy
  · rw [List.getElem?_append_right (by omega)] at hy
    have hi : k + xs.length + (i - xs.length) = k + i := by omega
    exact hi ▸ hys _ y hy

end Made

/-- The claim that `count` more elements, numbered from `k` and satisfying `P`, are constructed, or a
fault satisfies `F`, and nothing that was built is left. -/
def constructed (E : Element σ α) (m : Multiset (Asset α)) (P : Nat → α → Prop)
    (F : Nat → Fault → Prop) (k count : Nat) (s : Staging α) : Post (World σ α) (Staging α) :=
  ⟨fun s' w' => ∃ xs, xs.length = count ∧ Made P k xs ∧
      s' = { s with elements := s.elements ++ xs } ∧ w'.Owns (s'.assets E + m),
    fun _ _ => False,
    fun f w' => (∃ made, made.length < count ∧ Made P k made ∧ F (k + made.length) f) ∧
      f.IsRaised ∧ w'.Owns m⟩

/-- The act constructs `count` elements in a staging area out of the assets `given`, if there is room
for them. -/
def Constructs (E : Element σ α) (given : Multiset (Asset α)) (P : Nat → α → Prop)
    (F : Nat → Fault → Prop) (count : Nat)
    (construct : Staging α → Act (World σ α) (Staging α)) : Prop :=
  ∀ (s : Staging α) (w : World σ α) (m : Multiset (Asset α)), s.Valid E →
    s.stop + count ≤ s.region.capacity → w.Owns (given + (s.assets E + m)) →
    (construct s w).Meets (constructed E m P F 0 count s)

variable {P : Nat → α → Prop} {F : Nat → Fault → Prop} {given : Multiset (Asset α)}

/-- A faulting call leaves the staging as it was; one that returns fills the next slot. -/
theorem append_meets {P : α → Prop} {F : Fault → Prop} {make : Act (World σ α) α}
    (hmake : Act.Produces given P F make) (hs : s.Valid E)
    (hroom : s.stop < s.region.capacity) (h : w.Owns (given + (s.assets E + m))) :
    (s.append E make w).Meets
      ⟨fun s' w' => ∃ x, P x ∧ s' = { s with elements := s.elements ++ [x] } ∧
          w'.Owns (s'.assets E + m),
        fun _ _ => False, fun f w' => F f ∧ f.IsRaised ∧ w'.Owns m⟩ := by
  simp only [append, Act.onFault_meets, Act.bind_meets, Act.require_meets, Act.pure_meets]
  refine ⟨fun _ => ?_, fun hfull => absurd hroom hfull⟩
  refine (hmake w _ h).imp ?_ (fun _ _ => id) ?_
  · intro x w' h'
    refine ⟨x, h'.1, rfl, h'.2.of_eq ?_⟩
    simp only [assets, Asset.elements_append, Asset.elements_cons, Asset.elements_nil]
    abel
  · intro f w' h'
    exact (discard_meets hs true h'.2.2).imp (fun _ _ hm => ⟨h'.1, h'.2.1, hm⟩)
      (fun _ _ hm => ⟨h'.1, h'.2.1, hm⟩) (fun _ _ hm => ⟨h'.1, h'.2.1, hm⟩)

theorem append_constructs {P : α → Prop} {F : Fault → Prop} {make : Act (World σ α) α}
    (hmake : Act.Produces given P F make) :
    Constructs E given (fun _ => P) (fun _ => F) 1 (append E make) := by
  intro s w m hs hroom h
  refine (append_meets hmake hs hroom h).imp ?_ (fun _ _ => id) ?_
  · intro s' w' hx
    obtain ⟨x, hx, rfl, h'⟩ := hx
    exact ⟨[x], rfl, made_singleton hx, rfl, h'⟩
  · intro f w' hf
    exact ⟨⟨[], Nat.zero_lt_one, made_nil, hf.1⟩, hf.2⟩

theorem extend_one_constructs {P : α → Prop} {F : Fault → Prop} {make : Act (World σ α) α}
    (hmake : Act.Produces given P F make) :
    Constructs E given (fun _ => P) (fun _ => F) 1 (extend E (fun _ => make) 0 1) := by
  intro s w m hs hroom h
  have hone : s.extend E (fun _ => make) 0 1 = s.append E make := bind_pure _
  rw [hone]
  exact append_constructs hmake s w m hs hroom h

/-- A series of calls fills slot after slot, and a fault leaves the elements made before it to the
clean-up. -/
theorem extend_meets {make : Nat → Act (World σ α) α} (k count : Nat)
    (hmake : ∀ j, k ≤ j → j < k + count → Act.Produces 0 (P j) (F j) (make j)) (hs : s.Valid E)
    (hroom : s.stop + count ≤ s.region.capacity) (h : w.Owns (s.assets E + m)) :
    (s.extend E make k count w).Meets (constructed E m P F k count s) := by
  -- The staging grows along the recursion, so that a later fault discards what was made before it.
  induction count generalizing k s w with
  | zero => exact ⟨[], rfl, made_nil, by simp, h⟩
  | succ count ih =>
      simp only [extend, Act.bind_meets]
      refine (append_meets (hmake k (Nat.le_refl k) (by omega)) hs (by omega)
        (h.of_eq (zero_add _).symm)).imp ?_ (fun _ _ => id) ?_
      · intro s' w' hx
        obtain ⟨x, hx, rfl, h'⟩ := hx
        have hstop : { s with elements := s.elements ++ [x] }.stop = s.stop + 1 := by
          simp [stop, Nat.add_assoc]
        have hs' : { s with elements := s.elements ++ [x] }.Valid E :=
          ⟨hs.region, by rw [hstop]; exact Nat.le_trans (by omega) hroom⟩
        refine (ih (k + 1) (fun j hj hlt => hmake j (by omega) (by omega)) hs'
          (by rw [hstop]; exact Nat.le_trans (by omega) hroom) h').imp ?_ (fun _ _ => id) ?_
        · intro s'' w'' hxs
          obtain ⟨xs, hlen, hxs, rfl, h''⟩ := hxs
          exact ⟨x :: xs, by simp [hlen], .cons hx hxs, by simp, h''⟩
        · intro f w'' hf
          obtain ⟨⟨made, hlen, hmade, hf⟩, hraised, h''⟩ := hf
          refine ⟨⟨x :: made, by simpa using hlen, .cons hx hmade, ?_⟩, hraised, h''⟩
          rwa [List.length_cons, ← Nat.add_assoc, Nat.add_right_comm]
      · intro f w' hf
        exact ⟨⟨[], Nat.succ_pos count, made_nil, hf.1⟩, hf.2⟩

theorem extend_constructs {make : Nat → Act (World σ α) α} {count : Nat}
    (hmake : ∀ k < count, Act.Produces 0 (P k) (F k) (make k)) :
    Constructs E 0 P F count (extend E make 0 count) :=
  fun _ _ _ hs hroom h => extend_meets 0 count (fun j _ hj => hmake j (by omega)) hs hroom
    (h.of_eq (zero_add _))

/-! ## Contents put together in a new region -/

/-- New elements are constructed in a region of their own, then existing ones are moved around them. -/
def assemble (E : Element σ α) (allocator : Allocator) (capacity : Nat) (front back : List α)
    (construct : Staging α → Act (World σ α) (Staging α)) : Act (World σ α) (Region × List α) := do
  let s ← allocate E allocator capacity
  let s ← s.seek front.length
  let s ← construct s
  let s ← s.moveBefore front
  let s ← s.moveAfter back
  s.adopt

/-- Nothing is moved. -/
@[simp] theorem moveAfter_nil : (s.moveAfter [] : Act (World σ α) (Staging α)) = pure s := by
  simp only [moveAfter, List.length_nil, List.append_nil]
  rw [Act.require_eq_pure (Nat.zero_le _), pure_bind]

/-- Nothing is moved. -/
theorem moveBefore_nil : (s.moveBefore [] : Act (World σ α) (Staging α)) = pure s := by
  simp only [moveBefore, List.length_nil, List.nil_append, Nat.sub_zero]
  rw [Act.require_eq_pure (Nat.zero_le _), pure_bind]

/-- A construction is placed at the first slot to begin with. -/
theorem allocate_bind_seek_zero {β : Type} (allocator : Allocator) (capacity : Nat)
    (next : Staging α → Act (World σ α) β) :
    (allocate E allocator capacity >>= fun s => s.seek 0 >>= next)
      = allocate E allocator capacity >>= next := by
  simp only [allocate, bind_assoc, pure_bind]
  rfl

/-- Contents that are all new need not be placed or moved. -/
theorem assemble_new (allocator : Allocator) (capacity : Nat)
    (construct : Staging α → Act (World σ α) (Staging α)) :
    assemble E allocator capacity [] [] construct
      = (do
          let s ← allocate E allocator capacity
          let s ← construct s
          s.adopt) := by
  simp only [assemble, List.length_nil, moveBefore_nil, moveAfter_nil, pure_bind]
  exact allocate_bind_seek_zero allocator capacity _

/-- The block that comes out holds the front, the new elements and the back; otherwise nothing of
the attempt is left. -/
theorem assemble_meets {front back : List α} {count capacity : Nat} (allocator : Allocator)
    {construct : Staging α → Act (World σ α) (Staging α)}
    (hconstruct : Constructs E given P F count construct)
    (hroom : front.length + count + back.length ≤ capacity) (h : w.Owns (given + m)) :
    (assemble E allocator capacity front back construct w).Meets
      ⟨fun r w' => r.1.Valid E.toShape ∧ r.1.capacity = capacity ∧
          ∃ xs, xs.length = count ∧ Made P 0 xs ∧ r.2 = front ++ xs ++ back ∧
            w'.Owns (Asset.elements xs + r.1.assets E.toShape + m),
        fun e w' => e.IsLack ∧ w'.Owns (given + m),
        fun f w' => (∃ made, made.length < count ∧ Made P 0 made ∧ F made.length f) ∧
          f.IsRaised ∧ w'.Owns m⟩ := by
  simp only [assemble, Act.bind_meets]
  apply (allocate_meets allocator capacity w).imp _ _ (fun _ _ => False.elim)
  · intro s w₁ hs
    obtain ⟨hs, hstart, hnone, hcapacity, hgranted⟩ := hs
    have hslot : front.length ≤ s.region.capacity := by omega
    have hplaced : { s with start := front.length }.stop = front.length := by simp [stop, hnone]
    have hvalid : { s with start := front.length }.Valid E := ⟨hs.region, by rwa [hplaced]⟩
    simp only [seek_meets]
    refine ⟨fun _ => ⟨fun _ => ?_, fun hfar => absurd hslot hfar⟩, fun hfull => absurd hnone hfull⟩
    have howns : w₁.Owns (given + ({ s with start := front.length }.assets E + m)) :=
      (hgranted _ (h.of_eq (zero_add _).symm)).of_eq (add_left_comm _ _ _)
    refine (hconstruct _ _ _ hvalid (by rw [hplaced]; exact Nat.le_trans (by omega) hcapacity.ge)
      howns).imp ?_ (fun _ _ => False.elim) ?_
    · intro s' w₂ hxs
      obtain ⟨xs, hlen, hxs, rfl, h₂⟩ := hxs
      simp only [moveBefore_meets, moveAfter_meets, adopt_meets, Nat.le_refl, Nat.sub_self, stop,
        hnone, List.nil_append, List.length_append, hlen, not_true_eq_false, false_implies, and_true,
        forall_const]
      refine ⟨fun _ => ⟨hs.region, hcapacity, xs, hlen, hxs, rfl, ?_⟩, fun hfull => ?_⟩
      · simpa [assets, hnone] using h₂
      · exact absurd hroom (by omega)
    · intro f w₂ hf
      obtain ⟨⟨made, hlen, hmade, hf⟩, hraised, h₂⟩ := hf
      exact ⟨⟨made, hlen, hmade, by rwa [Nat.zero_add] at hf⟩, hraised, h₂⟩
  · intro e w₁ hrefused
    exact ⟨hrefused.1, (hrefused.2 _ (h.of_eq (zero_add _).symm)).of_eq (zero_add _)⟩

end Growable.Staging
