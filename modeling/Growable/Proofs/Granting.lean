import Growable.Proofs.Feed

/-!
# Allocators that grant every request

As long as the allocator of a container grants every request, and whatever else happens, nothing is ever
declined (`World.Granting`).  Each part of an operation keeps this; so what decides the answer of an
operation is only what its handle admits (`World.Granting.not_declines`).
-/

namespace Growable

open Act

variable {σ α β : Type}

namespace World

/-- The allocator at a place grants every request, and no request was declined since `w₀`. -/
structure Granting (place : Nat) (w₀ w : World σ α) : Prop where
  generous : ∃ account, w.accounts[place]? = some account ∧
    ∀ tally bytes, account.policy tally bytes = true
  undeclined : ∃ es, w.trace.toList = w₀.trace.toList ++ es ∧ ∀ place bytes, .declined place bytes ∉ es

/-- The allocator at a place grants every request. -/
def Generous (place : Nat) (w : World σ α) : Prop := w.Granting place w

variable {place : Nat} {w₀ w w' : World σ α}

/-- Policies do not change, so an allocator is as generous as it was. -/
theorem Granting.generous_now (h : w₀.Granting place w) : w.Generous place :=
  ⟨h.generous, [], (List.append_nil _).symm, by simp⟩

/-- An account whose policy grants everything makes a generous allocator. -/
theorem generous_of_account {account : Account} (h : w.accounts[place]? = some account)
    (hgrants : ∀ tally bytes, account.policy tally bytes = true) : w.Generous place :=
  ⟨⟨account, h, hgrants⟩, [], (List.append_nil _).symm, by simp⟩

/-- As long as an allocator grants, nothing is declined. -/
theorem Granting.not_declines (h : w₀.Granting place w) : ¬ w₀.Declines w := by
  obtain ⟨es, hes, hnone⟩ := h.undeclined
  rintro ⟨es', p, bytes, hes', hmem⟩
  obtain rfl : es = es' := List.append_cancel_left (hes.symm.trans hes')
  exact hnone p bytes hmem

/-- The accounts have the policies that they had. -/
def SamePolicies (w w' : World σ α) : Prop :=
  ∀ (p : Nat) (account : Account), w.accounts[p]? = some account →
    ∃ account', w'.accounts[p]? = some account' ∧ account'.policy = account.policy

/-- The policies are part of the accounts. -/
theorem samePolicies_of_eq (h : w'.accounts = w.accounts) : w.SamePolicies w' :=
  fun _ account ha => ⟨account, h ▸ ha, rfl⟩

/-- Counting does not change a policy. -/
theorem samePolicies_retally (p : Nat) (change : Tally → Tally) (h : w'.accounts
    = w.accounts.modify p fun a => { a with tally := change a.tally }) : w.SamePolicies w' := by
  intro q account ha
  rw [h, List.getElem?_modify, ha]
  by_cases hq : p = q
  · exact ⟨_, congrArg some (if_pos hq), rfl⟩
  · exact ⟨_, congrArg some (if_neg hq), rfl⟩

/-- One event that is not a declined request. -/
theorem Granting.push {e : Event α} (h : w₀.Granting place w) (he : ∀ place bytes, e ≠ .declined place bytes)
    (hpolicies : w.SamePolicies w') (htrace : w'.trace = w.trace.push e) : w₀.Granting place w' := by
  obtain ⟨⟨account, ha, hgrants⟩, es, hes, hnone⟩ := h
  obtain ⟨account', ha', hsame⟩ := hpolicies place account ha
  refine ⟨⟨account', ha', hsame ▸ hgrants⟩, es ++ [e], ?_, fun p bytes hmem => ?_⟩
  · rw [htrace, Array.toList_push, hes, List.append_assoc]
  · rcases List.mem_append.mp hmem with hmem | hmem
    · exact hnone p bytes hmem
    · exact he p bytes (List.mem_singleton.mp hmem).symm

/-- An event that is no refusal may be recorded. -/
theorem granting_record {e : Event α} (he : ∀ place bytes, e ≠ .declined place bytes) :
    Keeps (w₀.Granting place) (record e) :=
  fun _ h => h.push he (samePolicies_of_eq rfl) rfl

/-- A generous allocator grants every request. -/
theorem granting_request (allocator : Allocator) (bytes : Nat) :
    Keeps (w₀.Granting allocator.place) (request allocator bytes) := by
  intro w h
  obtain ⟨account, ha, hgrants⟩ := h.generous
  unfold request
  simp only [bind_meets, get_meets, ite_meets, modify_meets, pure_meets, ha, hgrants, not_true_eq_false,
    false_implies, and_true]
  intro _
  have hgranted : ∀ place' bytes' : Nat,
      (.granted allocator.place w.issued bytes : Event α) ≠ .declined place' bytes' := by
    intro place' bytes' he
    cases he
  exact h.push hgranted (samePolicies_retally allocator.place (·.grant bytes) rfl) rfl

/-- Returning a block declines nothing. -/
theorem granting_giveBack (allocator : Allocator) (block : Block) (bytes : Nat) :
    Keeps (w₀.Granting place) (giveBack allocator block bytes) :=
  fun _ h => h.push (e := .returned allocator.place block bytes) nofun
    (samePolicies_retally allocator.place (·.restore bytes) rfl) rfl

end World

open World

variable {place : Nat} {w₀ : World σ α}

namespace Region

/-- The one request of an allocation is granted. -/
theorem granting_allocate (shape : Shape) (allocator : Allocator) (capacity : Nat) :
    Keeps (w₀.Granting allocator.place) (allocate shape allocator capacity) := by
  unfold allocate
  split
  · exact fun _ => id
  · exact keeps_pure _
  · exact (granting_request _ _).bind fun _ => keeps_pure _

/-- Releasing a region declines nothing. -/
theorem granting_release (shape : Shape) (allocator : Allocator) (r : Region) :
    Keeps (w₀.Granting place) (release shape allocator r) := by
  apply (keeps_ofOption _ _).bind
  intro bytes
  apply Keeps.ite (fun _ => keeps_pure _)
  intro _
  exact (keeps_ofOption _ _).bind fun _ => granting_giveBack _ _ _

end Region

namespace Element

variable (E : Element σ α)

/-- Dropping an element declines nothing. -/
theorem granting_drop (unwinding : Bool) (x : α) : Keeps (w₀.Granting place) (E.drop unwinding x) := by
  intro w h
  have hdropped : ∀ faulted w', w'.accounts = w.accounts → w'.trace = w.trace.push (.dropped x faulted) →
      w₀.Granting place w' := fun _ _ haccounts => h.push nofun (samePolicies_of_eq haccounts)
  simp only [drop, bind_meets, get_meets, modify_meets]
  cases unwinding with
  | true => exact hdropped false _ rfl rfl
  | false =>
      cases (E.onDrop x w.code).1 with
      | ok _ => exact hdropped false _ rfl rfl
      | error message => exact hdropped true _ rfl rfl

theorem granting_dropAll (unwinding : Bool) (xs : List α) :
    Keeps (w₀.Granting place) (E.dropAll unwinding xs) := by
  induction xs generalizing unwinding with
  | nil => exact keeps_pure _
  | cons x rest ih => exact (E.granting_drop unwinding x).ensuring fun _ => ih _

end Element

namespace Staging

variable (E : Element σ α) (s : Staging α)

theorem granting_allocate (allocator : Allocator) (capacity : Nat) :
    Keeps (w₀.Granting allocator.place) (allocate E allocator capacity) :=
  (Region.granting_allocate _ _ _).bind fun _ => keeps_pure _

/-- Giving a staging up declines nothing. -/
theorem granting_discard (unwinding : Bool) : Keeps (w₀.Granting place) (s.discard E unwinding) :=
  (E.granting_dropAll _ _).ensuring fun _ => Region.granting_release _ _ _

theorem granting_seek (slot : Nat) :
    Keeps (w₀.Granting place) (s.seek slot : Act (World σ α) (Staging α)) :=
  (keeps_require _ _).bind fun _ => (keeps_require _ _).bind fun _ => keeps_pure _

/-- A construction that declines nothing may fill a staging. -/
theorem granting_append {make : Act (World σ α) α} (hmake : Keeps (w₀.Granting place) make) :
    Keeps (w₀.Granting place) (s.append E make) := by
  apply Keeps.onFault _ (s.granting_discard E true)
  apply (keeps_require _ _).bind
  exact fun _ => hmake.bind fun _ => keeps_pure _

theorem granting_moveBefore (existing : List α) :
    Keeps (w₀.Granting place) (s.moveBefore existing : Act (World σ α) (Staging α)) :=
  (keeps_require _ _).bind fun _ => keeps_pure _

theorem granting_moveAfter (existing : List α) :
    Keeps (w₀.Granting place) (s.moveAfter existing : Act (World σ α) (Staging α)) :=
  (keeps_require _ _).bind fun _ => keeps_pure _

theorem granting_adopt :
    Keeps (w₀.Granting place) (s.adopt : Act (World σ α) (Region × List α)) :=
  (keeps_require _ _).bind fun _ => keeps_pure _

end Staging

/-! ## Containers -/

namespace Storage

variable {S : Type} (K : Storage S)

/-- The allocator of a container grants every request, and none was declined since `w₀`. -/
def Granted (place : Nat) (w₀ : World σ α) (u : S × World σ α) : Prop :=
  (K.handle u.1).allocator.place = place ∧ w₀.Granting place u.2

variable {K}

/-- The handle of the storage is not touched by an act on the world. -/
theorem granted_inWorld {act : Act (World σ α) β} (h : Keeps (w₀.Granting place) act) :
    Keeps (K.Granted place w₀) (inWorld act) :=
  Keeps.inWorld fun s => (keeps_const ((K.handle s).allocator.place = place) act).and h

/-- Putting a storage in place keeps the grant if it has the same allocator. -/
theorem granted_hold {s : S} (hs : (K.handle s).allocator.place = place) :
    Keeps (K.Granted place w₀) (hold s) :=
  keeps_hold fun _ _ h => ⟨hs, h.2⟩

/-- A container of which `I` holds, and which has the handle `handle`; the allocator of that grants every
request. -/
structure Supplied (K : Storage S) (I : S × World σ α → Prop) (handle : Handle) (u : S × World σ α) :
    Prop where
  holds : I u
  handle_eq : K.handle u.1 = handle
  generous : u.2.Generous handle.allocator.place

variable {I : S × World σ α → Prop} {handle : Handle} {s : S} {w : World σ α}

/-- A supplied storage has an allocator that grants. -/
theorem Supplied.granted (hs : K.Supplied I handle (s, w)) :
    K.Granted handle.allocator.place w (s, w) :=
  ⟨congrArg (·.allocator.place) hs.handle_eq, hs.generous⟩

/-- What the handle admits is not refused. -/
theorem Supplied.admitted {act : Act (S × World σ α) β} {given : Option α} {n : Nat} {ahead : Bool}
    (hs : K.Supplied I handle (s, w)) (hslot : K.slot.Lawful) (hmax : n ≤ K.maxSize s)
    (hact : Demand.Answered K ⟨.ok (), n, ahead⟩ given s w (act (s, w)))
    (hgranted : Keeps (K.Granted handle.allocator.place w) act) :
    (act (s, w)).Meets ⟨fun _ _ => True, fun _ _ => False, fun _ _ => True⟩ := by
  refine ((hact.governs.admits hslot rfl).and (hgranted _ hs.granted)).imp (fun _ _ _ => trivial) ?_
    (fun _ _ _ => trivial)
  rintro e u ⟨⟨-, hexceeds⟩ | ⟨-, hdeclines⟩, -, hgranting⟩
  · exact Nat.not_lt.mpr hmax hexceeds
  · exact hgranting.not_declines hdeclines

end Storage

end Growable
