import Growable.Program.Workspace
import Growable.Proofs.Demand
import Growable.Proofs.Trace

/-!
# How contents change hands

The contents of one container come to another one of its kind: they are moved there, and nothing of them
is left behind (`Kind.Moved`), or they are copied (`Kind.Copied`).  What the other container held before
is disposed of once the new contents are there.

Sequences and bit sequences have this in common, and differ in what they hold (`Kind`): the elements of a
sequence have code of their own, which runs when they are copied and when they are dropped; bits do not.
-/

namespace Growable

variable {σ α γ S : Type}

/-- How the containers of one kind keep their items, and what they hold. -/
structure Kind (S γ α : Type) extends Storage S where
  items : S → List γ
  /-- The items with code of their own. -/
  elements : S → List α

/-- The response to an operation that is done unless a drop faulted. -/
def Response.ofDrops (fault? : Option String) : Response α :=
  match fault? with
  | none => .answer .nothing
  | some message => .faulted (.raised message)

/-- The claim that relates the response to an operation to the state that it leaves behind. -/
def Post.responding (P : Response α → S → Prop) : Post S Unit :=
  ⟨fun _ => P (.answer .nothing), fun e => P (.refused e), fun f => P (.faulted f)⟩

/-- The statement about a response may be weakened. -/
theorem Outcome.Meets.responding_imp {o : Outcome S Unit} {P Q : Response α → S → Prop}
    (h : o.Meets (.responding P)) (hQ : ∀ response s, P response s → Q response s) :
    o.Meets (.responding Q) :=
  h.imp (fun _ => hQ _) (fun _ => hQ _) (fun _ => hQ _)

/-- An act that ends as its drops do has the response of these drops. -/
theorem Post.responding_of_raising {o : Outcome S Unit} {fault? : Option String} {P : S → Prop}
    {Q : Response α → S → Prop} (h : o.Meets (.raising fault? P))
    (hQ : ∀ s, P s → Q (.ofDrops fault?) s) : o.Meets (.responding Q) := by
  apply h.imp
  · rintro _ s ⟨rfl, hs⟩
    exact hQ s hs
  · exact fun _ _ => False.elim
  · rintro _ s ⟨_, rfl, rfl, hs⟩
    exact hQ s hs

/-- An act about which something is known when it returns has that for the empty answer. -/
theorem Post.responding_of_whenDone {o : Outcome S Unit} {P : S → Prop}
    (h : o.Meets (.whenDone fun _ => P)) :
    o.Meets (.responding fun (response : Response α) s => response = .answer .nothing → P s) :=
  h.imp (fun _ _ hs _ => hs) (fun _ _ _ => nofun) (fun _ _ _ => nofun)

/-- An act that returns has the empty answer. -/
theorem Post.responding_of_returns {o : Outcome S Unit} {P : S → Prop}
    (h : o.Meets (.returns fun _ => P)) :
    o.Meets (.responding fun (response : Response α) s => response = .answer .nothing ∧ P s) :=
  h.imp (fun _ _ hs => ⟨rfl, hs⟩) (fun _ _ => False.elim) (fun _ _ => False.elim)

/-- The response that a workspace gives to an operation that it performs. -/
theorem Outcome.Meets.response {act : Act S Unit} {s : S} {P : Response α → S → Prop}
    (h : (act s).Meets (.responding P)) :
    P (.ofOutcome ((do act; return .nothing : Act S (Answer α)) s))
      ((do act; return .nothing : Act S (Answer α)) s).state := by
  change P (.ofOutcome (act.bind (fun _ => Act.pure .nothing) s))
    (act.bind (fun _ => Act.pure (.nothing : Answer α)) s).state
  unfold Act.bind
  cases hact : act s with
  | done b t =>
      rw [hact] at h
      exact h
  | refused e t =>
      rw [hact] at h
      exact h
  | faulted f t =>
      rw [hact] at h
      exact h

/-- A handle that is not foreign is not taken for one. -/
theorem Handle.comes_eq_false {h other : Handle} (hown : ¬ h.Foreign other) :
    (other.propagates && !h.isEquivalent other) = false := by
  apply Bool.eq_false_iff.mpr
  intro hcomes
  rw [Bool.and_eq_true, Bool.not_eq_true'] at hcomes
  exact hown hcomes

/-- A propagating handle that is not foreign is an equivalent one. -/
theorem Handle.isEquivalent_of_own {h other : Handle} (hcomes : other.propagates = true)
    (hown : ¬ h.Foreign other) : h.isEquivalent other = true :=
  Bool.of_not_eq_false fun hstays => hown ⟨hcomes, hstays⟩

namespace Kind

variable (K : Kind S γ α) (E : Element σ α)

/-- The slots that the items of a container take without spare ones. -/
def slots (s : S) : Nat := K.slotsFor (K.items s).length

/-- The bytes that the items of a container take without spare slots. -/
def bytes (s : S) : Nat := K.slot.bytes * K.slots s

/-- The events by which a container is disposed of. -/
def disposal (s : S) (code : σ) : List (Event α) :=
  E.dropEvents (K.elements s) code ++ (K.region s).returning K.slot (K.handle s).allocator

/-- After the events `es`, the items of `t` are those of `s'`, and none are left in `t'`; then the old
contents of `s` were disposed of, whether or not a drop faulted. -/
structure Handed (s t : S) (w : World σ α) (es : List (Event α)) (response : Response α) (s' t' : S)
    (w' : World σ α) : Prop where
  response_eq : response = .ofDrops (E.dropFault? (K.elements s) w.code)
  items_eq : K.items s' = K.items t
  items_left : K.items t' = []
  handle_eq : K.handle s' = K.handle s
  handle_left : K.handle t' = K.handle t
  passes : w.Passes (es ++ K.disposal E s w.code) (E.afterDrops (K.elements s) w.code) w'

/-- What it comes to when the contents of `t` are moved into `s`: the containers are `s'` and `t'` then. -/
structure Moved (s t : S) (w : World σ α) (response : Response α) (s' t' : S) (w' : World σ α) :
    Prop where
  /-- If blocks can pass to the allocator of `s`, the region of `t` changes hands, and nobody is asked. -/
  passed : (K.handle s).isEquivalent (K.handle t) = true →
    K.Handed E s t w [] response s' t' w' ∧ K.region s' = K.region t ∧
      K.region t' = .empty ∧ K.capacity t' = 0
  /-- If they cannot, and the one request for a new region is declined, nothing else happens. -/
  declined : (K.handle s).isEquivalent (K.handle t) = false → 0 < K.bytes t →
    ¬ w.Grants (K.handle s).allocator (K.bytes t) →
      response = .refused .allocationFailure ∧ s' = s ∧ t' = t ∧
        w.Passes [.declined (K.handle s).allocator.place (K.bytes t)] w.code w'
  /-- If it is granted, or there is nothing to ask for, the items are moved to a region of exactly as many
  slots as they take, and `t` keeps its own region. -/
  carried : (K.handle s).isEquivalent (K.handle t) = false →
    (0 < K.bytes t → w.Grants (K.handle s).allocator (K.bytes t)) →
      K.Handed E s t w ((K.region s').granting K.slot (K.handle s).allocator) response s' t' w' ∧
        K.region s' = .fresh K.slot (K.slots t) w ∧ K.region t' = K.region t

/-- The events by which a region with copies of the items of `t`, granted by `allocator`, takes the place of
the contents of `s`: the region is asked for and filled before anything of `s` is given up. -/
def replacing (allocator : Allocator) (s t : S) (region : Region) : List (Event α) :=
  region.granting K.slot allocator ++ (K.elements t).map (fun x => .cloned x x) ++
    ((K.elements s).map (.dropped · false) ++ (K.region s).returning K.slot (K.handle s).allocator)

/-- What it comes to when the contents of `t` are copied to `s`, which is `s'` then. -/
structure Copied (s t : S) (w : World σ α) (s' : S) (w' : World σ α) : Prop where
  items_eq : K.items s' = K.items t
  handle_eq : K.handle s' = if (K.handle t).propagates then K.handle t else K.handle s
  /-- If the handle comes along and blocks cannot pass, the allocator of `t` grants a region of exactly as
  many slots as the items take. -/
  foreign : (K.handle s).Foreign (K.handle t) →
    K.region s' = .fresh K.slot (K.slots t) w ∧
      w.Emits (K.replacing (K.handle t).allocator s t (K.region s')) w'
  /-- If the items fit in otherwise, the region is kept, and no allocator hears of it. -/
  kept : ¬ (K.handle s).Foreign (K.handle t) → (K.items t).length ≤ K.capacity s →
    K.region s' = K.region s ∧ K.capacity s' = K.capacity s ∧ w.Evolves (fun e => e.place? = none) w'
  /-- If they do not fit in, the allocator of `s` grants a region of exactly as many slots as they take. -/
  grown : ¬ (K.handle s).Foreign (K.handle t) → K.capacity s < (K.items t).length →
    K.region s' = .fresh K.slot (K.slots t) w ∧ ∃ notes : List Note,
      w.Emits (notes.map .noted ++ K.replacing (K.handle s).allocator s t (K.region s')) w'

/-! ### One case each -/

variable {K E} {s t s' t' : S} {w w' : World σ α} {response : Response α}

/-- Between equivalent handles the block itself is handed over. -/
theorem Moved.of_passed (hpass : (K.handle s).isEquivalent (K.handle t) = true)
    (h : K.Handed E s t w [] response s' t' w') (hregion : K.region s' = K.region t)
    (hleft : K.region t' = .empty) (hcapacity : K.capacity t' = 0) :
    K.Moved E s t w response s' t' w' where
  passed _ := ⟨h, hregion, hleft, hcapacity⟩
  declined hstay := absurd hstay (ne_false_of_eq_true hpass)
  carried hstay := absurd hstay (ne_false_of_eq_true hpass)

/-- Between others, a refusal of the allocator leaves both sides as they were. -/
theorem Moved.of_declined (hstay : ¬ (K.handle s).isEquivalent (K.handle t) = true)
    (hpos : 0 < K.bytes t) (hdeclines : ¬ w.Grants (K.handle s).allocator (K.bytes t))
    (hw' : w.Passes [.declined (K.handle s).allocator.place (K.bytes t)] w.code w') :
    K.Moved E s t w (.refused .allocationFailure) s t w' where
  passed hpass := absurd hpass hstay
  declined _ _ _ := ⟨rfl, rfl, rfl, hw'⟩
  carried _ hgrants := absurd (hgrants hpos) hdeclines

/-- Between others, the elements are carried over to a block of their new handle. -/
theorem Moved.of_carried (hstay : ¬ (K.handle s).isEquivalent (K.handle t) = true)
    (hgrants : 0 < K.bytes t → w.Grants (K.handle s).allocator (K.bytes t))
    (h : K.Handed E s t w ((K.region s').granting K.slot (K.handle s).allocator) response s' t' w')
    (hregion : K.region s' = .fresh K.slot (K.slots t) w) (hleft : K.region t' = K.region t) :
    K.Moved E s t w response s' t' w' where
  passed hpass := absurd hpass hstay
  declined _ hpos hdeclines := absurd (hgrants hpos) hdeclines
  carried _ _ := ⟨h, hregion, hleft⟩

/-- A foreign handle comes with a block of its own. -/
theorem Copied.of_foreign (hforeign : (K.handle s).Foreign (K.handle t))
    (hitems : K.items s' = K.items t) (hhandle : K.handle s' = K.handle t)
    (hregion : K.region s' = .fresh K.slot (K.slots t) w)
    (hw' : w.Emits (K.replacing (K.handle t).allocator s t (K.region s')) w') :
    K.Copied s t w s' w' where
  items_eq := hitems
  handle_eq := hhandle.trans (if_pos hforeign.1).symm
  foreign _ := ⟨hregion, hw'⟩
  kept hown := absurd hforeign hown
  grown hown := absurd hforeign hown

/-- A block that is large enough is used again. -/
theorem Copied.of_kept (hown : ¬ (K.handle s).Foreign (K.handle t))
    (hroom : (K.items t).length ≤ K.capacity s) (hitems : K.items s' = K.items t)
    (hhandle : K.handle s' = if (K.handle t).propagates then K.handle t else K.handle s)
    (hregion : K.region s' = K.region s) (hcapacity : K.capacity s' = K.capacity s)
    (hw' : w.Evolves (fun e => e.place? = none) w') : K.Copied s t w s' w' where
  items_eq := hitems
  handle_eq := hhandle
  foreign h := absurd h hown
  kept _ _ := ⟨hregion, hcapacity, hw'⟩
  grown _ hfull := absurd hroom (Nat.not_le.mpr hfull)

/-- A block that is too small is replaced, under the handle that was there. -/
theorem Copied.of_grown (hown : ¬ (K.handle s).Foreign (K.handle t))
    (hfull : K.capacity s < (K.items t).length) (hitems : K.items s' = K.items t)
    (hhandle : K.handle s' = if (K.handle t).propagates then K.handle t else K.handle s)
    (hregion : K.region s' = .fresh K.slot (K.slots t) w) (notes : List Note)
    (hw' : w.Emits (notes.map .noted ++ K.replacing (K.handle s).allocator s t (K.region s')) w') :
    K.Copied s t w s' w' where
  items_eq := hitems
  handle_eq := hhandle
  foreign h := absurd h hown
  kept _ hroom := absurd hfull (Nat.not_lt.mpr hroom)
  grown _ _ := ⟨hregion, notes, hw'⟩

end Kind

end Growable
