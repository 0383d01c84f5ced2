import Growable.Proofs.Program.BitRefinement
import Growable.Proofs.Sequence.Refinement

/-!
# Where faults come from

The storage has no fault of its own, save where an element, or a copy, is taken for granted and cannot be had.
Every other fault is raised by the code of the elements, or by the closure or the iterator that was handed in;
no check of the storage is ever found broken (`Workspace.perform_faults`).
-/

namespace Growable

open Act

variable {σ α β : Type} {E : Element σ α} {w : World σ α} {m : Multiset (Asset α)}

/-! ## Code of the elements -/

/-- A fault of a replacement is one of the code of the elements. -/
theorem Element.ReplaceFaults.codeRaises {olds ys : List α} {k : Nat} {f : Fault}
    (h : E.ReplaceFaults olds ys k f) : E.CodeRaises f := by
  obtain ⟨_, _, hraise⟩ := h
  split at hraise
  · exact .overwrite hraise
  · exact .clone hraise

theorem Element.codeRaises_of_drops {xs : List α} {f : Fault} (h : ∃ x ∈ xs, CanRaise (E.onDrop x) f) :
    E.CodeRaises f := by
  obtain ⟨_, _, hraise⟩ := h
  exact .drop hraise

/-! ## Operations on sequences -/

/-- The closure that an operation calls. -/
def Edit.maker? : Edit α → Option (Maker α)
  | pushBy maker => some maker
  | insertBy _ maker => some maker
  | resizeBy _ maker => some maker
  | _ => none

/-- The iterator that an operation goes through. -/
def Edit.feed? : Edit α → Option (Feed α)
  | insertFeed _ feed => some feed
  | extendFeed feed => some feed
  | assignFeed feed => some feed
  | _ => none

/-- The index of the element that an operation takes for granted. -/
def Edit.demanded? : Edit α → Option Nat
  | demand index => some index
  | exchangeDemanded index _ => some index
  | _ => none

/-- The fault is raised by code that is not part of the storage, or the element that the operation takes for
granted does not exist. -/
inductive Edit.CanFault (E : Element σ α) (e : Edit α) (len : Nat) (f : Fault) : Prop
  | element (h : E.CodeRaises f)
  | closure {maker : Maker α} {k : Nat} {message : String} (hmaker : e.maker? = some maker)
      (hcall : maker.onCall k = .error message) (hf : f = .raised message)
  | iterator {feed : Feed α} {message : String} (hfeed : e.feed? = some feed)
      (hraised : feed.raised? = some message) (hf : f = .raised message)
  | demanded {index : Nat} (hindex : e.demanded? = some index) (hlen : len ≤ index)
      (hf : f = .indexOutOfBounds index len)

/-- Only these faults. -/
def Fault.only (G : Fault → Prop) {S δ : Type} : Post S δ := ⟨fun _ _ => True, fun _ _ => True, fun f _ => G f⟩

/-- What is answered makes no difference to the faults. -/
theorem Fault.only_answered {S : Type} {act : Act S β} {s : S} {G : Fault → Prop} (g : β → Answer α)
    (h : (act s).Meets (Fault.only G)) : ((do return g (← act) : Act S (Answer α)) s).Meets (Fault.only G) :=
  bind_meets.mpr (h.imp (fun _ _ _ => trivial) (fun _ _ _ => trivial) fun _ _ => id)

namespace Sequence

variable {s : Sequence α} {F : Nat → Fault → Prop} {G : Fault → Prop}

/-- The faults of an act in custody are those that its postcondition has. -/
theorem faults_of_soundly {o : Outcome (Sequence α × World σ α) β} {post : Post (Sequence α) β}
    (hfits : E.toShape.Fits) (h : o.Meets (soundly E m post)) (hpost : ∀ f t, post.faulted f t → G f) :
    o.Meets (Fault.only G) :=
  h.imp (fun _ _ _ => trivial) (fun _ _ _ => trivial) fun f u hf => hpost f u.1 (hf.2.2 hfits)

/-- An insertion has the faults of its constructions alone. -/
theorem faults_of_inserted {position count : Nat} {P : Nat → α → Prop} {left : List α → List α}
    (hF : ∀ k f, F k f → G f) (f : Fault) (t : Sequence α)
    (h : (inserted s position count P F left).faulted f t) : G f := by
  obtain ⟨_, _, _, _, hf, _⟩ := h
  exact hF _ _ hf

/-- A lengthening has the faults of its constructions and of the drop of its argument. -/
theorem faults_of_lengthened {n : Nat} {P : Nat → α → Prop} (hdrop : ∀ f, E.CodeRaises f → G f)
    (hF : ∀ k f, F k f → G f) (f : Fault) (t : Sequence α) (h : (s.lengthened E n P F).faulted f t) : G f := by
  obtain ⟨_, hdrops | ⟨_, _, _, hf⟩⟩ := h
  · exact hdrop f (Element.codeRaises_of_drops hdrops)
  · exact hF _ _ hf

/-- Lengthening by clones has only faults of the code of the elements. -/
theorem codeRaises_of_lengthenedBy {n : Nat} {x : α} (f : Fault) (t : Sequence α)
    (h : (s.lengthenedBy E n x).faulted f t) : E.CodeRaises f := by
  rcases h with hmade | ⟨hdrop, _⟩
  · exact faults_of_lengthened (fun _ => id) (fun _ _ hf => .clone hf) f t hmade
  · exact .drop hdrop

theorem codeRaises_of_assigned {ys : List α} (f : Fault) (t : Sequence α)
    (h : (s.assigned E ys).faulted f t) : E.CodeRaises f := by
  rcases h with ⟨_, _, _, _, hf, _⟩ | ⟨_, _, _, hdrops⟩
  · exact hf.codeRaises
  · exact Element.codeRaises_of_drops hdrops

/-- A copy has only faults of the code of the elements. -/
theorem copyFrom_faults (other : Sequence α) (hfits : E.toShape.Fits) (hs : Sound E m (s, w)) :
    (copyFrom E other (s, w)).Meets (Fault.only E.CodeRaises) := by
  refine faults_of_soundly hfits (copyFrom_meets hs) fun f t hf => ?_
  rcases hf with ⟨_, _, hf⟩ | hdrops
  · exact hf.codeRaises
  · exact Element.codeRaises_of_drops hdrops

theorem moveFrom_faults {other : Sequence α} (hfits : E.toShape.Fits) (h : SoundPair E m ((s, other), w)) :
    (moveFrom E ((s, other), w)).Meets (Fault.only E.CodeRaises) :=
  (moveFrom_meets h).imp (fun _ _ _ => trivial) (fun _ _ _ => trivial)
    fun _ _ hf => Element.codeRaises_of_drops (hf.2.2 hfits).1

end Sequence

open Sequence in
/-- **Step.**  What faults in an operation on a sequence. -/
theorem Edit.perform_faults {s : Sequence α} (e : Edit α) (hfits : E.toShape.Fits)
    (hs : Sequence.Sound E m (s, w)) : (e.perform E (s, w)).Meets (Fault.only (e.CanFault E s.len)) := by
  have hanswered : ∀ {β : Type} {act : SequenceAct σ α β} {post : Post (Sequence α) β} (g : β → Answer α),
      (act (s, w)).Meets (soundly E m post) → (∀ f t, post.faulted f t → e.CanFault E s.len f) →
      ((do return g (← act) : SequenceAct σ α (Answer α)) (s, w)).Meets (Fault.only (e.CanFault E s.len)) :=
    fun g h hpost => Fault.only_answered g (faults_of_soundly hfits h hpost)
  -- Most operations fault only as code of the elements does, and some not at all.
  have hcode : ∀ {β : Type} {act : SequenceAct σ α β} {post : Post (Sequence α) β} (g : β → Answer α),
      (act (s, w)).Meets (soundly E m post) → (∀ f t, post.faulted f t → E.CodeRaises f) →
      ((do return g (← act) : SequenceAct σ α (Answer α)) (s, w)).Meets (Fault.only (e.CanFault E s.len)) :=
    fun g h hpost => hanswered g h fun f t hf => .element (hpost f t hf)
  have hnever : ∀ (f : Fault) (_ : Sequence α), False → E.CodeRaises f := fun _ _ => False.elim
  have hclones : ∀ {ys : List α} (k : Nat) (f : Fault), E.CloneFaults ys k f → E.CodeRaises f :=
    fun _ _ => Element.CloneFaults.codeRaises
  have hcalls : ∀ {maker : Maker α}, e.maker? = some maker → ∀ (k : Nat) (f : Fault),
      (∃ message, maker.onCall k = .error message ∧ f = .raised message) → e.CanFault E s.len f := by
    intro maker hmaker k f hf
    obtain ⟨message, hcall, hf⟩ := hf
    exact .closure hmaker hcall hf
  have hfeeds : ∀ {feed : Feed α} {f : Fault} {p : String → Prop}, e.feed? = some feed →
      (∃ message, feed.raised? = some message ∧ f = .raised message ∧ p message) →
      e.CanFault E s.len f := by
    intro feed f p hfeed hf
    obtain ⟨message, hraised, hf, _⟩ := hf
    exact .iterator hfeed hraised hf
  cases e with
  | reserve capacity => exact hcode _ (reserve_meets capacity hs) hnever
  | reserveMore additional => exact hcode _ (reserveMore_meets additional hs) hnever
  | shrink => exact hcode _ (shrink_meets hs) hnever
  | push x => exact hcode _ (push_meets x hs) fun _ _ hf => .drop hf.1
  | pushBy maker =>
      exact hanswered _ (pushBy_call_meets maker hs) (faults_of_inserted fun _ => hcalls rfl _)
  | pop => exact hcode _ (pop_meets hs) hnever
  | insert position x => exact hcode _ (insert_meets position x hs) fun _ _ hf => .drop hf.1
  | insertBy position maker =>
      exact hanswered _ (insertBy_call_meets position maker hs) (faults_of_inserted fun _ => hcalls rfl _)
  | erase index => exact hcode _ (erase_meets index hs) hnever
  | truncate n => exact hcode _ (truncate_meets n hs) fun _ _ hf => Element.codeRaises_of_drops hf.2
  | clear => exact hcode _ (truncate_meets 0 hs) fun _ _ hf => Element.codeRaises_of_drops hf.2
  | resize n x => exact hcode _ (resize_meets n x hs) codeRaises_of_lengthenedBy
  | resizeDefault n =>
      exact hcode _ (resizeMade_meets n hs fun _ _ => E.default_produces)
        (faults_of_lengthened (fun _ => id) fun _ _ hf => .default hf)
  | resizeBy n maker =>
      exact hanswered _ (resizeMade_meets n hs fun k _ => maker.produces k)
        (faults_of_lengthened (fun _ => .element) (hcalls rfl))
  | insertCopies position count x =>
      exact hcode _ (insertCopies_meets position count x hs) (faults_of_inserted hclones)
  | insertAll position xs => exact hcode _ (insertAll_meets position xs hs) (faults_of_inserted hclones)
  | insertOwn position span =>
      refine hcode _ (insertOwn_meets position span hs) fun f t hf => ?_
      obtain ⟨_, _, hf⟩ := hf
      exact faults_of_inserted hclones f t hf
  | insertFeed position feed =>
      refine hanswered _ (insertFeed_meets position feed hs) fun f t hf => ?_
      obtain ⟨_, _, hraised | ⟨_, _, hdrops⟩⟩ := hf
      · exact hfeeds rfl hraised
      · exact .element (Element.codeRaises_of_drops hdrops)
  | extendAll xs => exact hcode _ (extendAll_meets xs hs) (faults_of_inserted hclones)
  | extendFeed feed =>
      refine hanswered _ (insertFeed_meets s.len feed hs) fun f t hf => ?_
      obtain ⟨_, _, hraised | ⟨_, _, hdrops⟩⟩ := hf
      · exact hfeeds rfl hraised
      · exact .element (Element.codeRaises_of_drops hdrops)
  | eraseSpan span =>
      refine hcode _ (eraseSpan_meets span hs) fun f t hf => ?_
      obtain ⟨_, _, _, _, hdrops⟩ := hf
      exact Element.codeRaises_of_drops hdrops
  | assignCopies count x => exact hcode _ (assignCopies_meets count x hs) codeRaises_of_assigned
  | assignAll xs => exact hcode _ (assignAll_meets xs hs) codeRaises_of_assigned
  | assignFeed feed =>
      refine hanswered _ (assignFeed_meets feed hs) fun f t hf => ?_
      obtain ⟨_, hraised | hdrops⟩ := hf
      · exact hfeeds rfl hraised
      · exact .element (Element.codeRaises_of_drops hdrops)
  | get index =>
      refine bind_meets.mpr (held_meets.mpr (bind_meets.mpr (ofExcept_meets.mpr ⟨?_, ?_⟩)))
      · exact fun _ _ => trivial
      · exact fun _ _ => trivial
  | exchange index x => exact hcode _ (exchange_meets index x hs) hnever
  | demand index =>
      refine hanswered _ (demand_meets index hs) fun f t hf => ?_
      obtain ⟨⟨_, he⟩, hf, _⟩ := hf
      exact .demanded rfl (List.getElem?_eq_none_iff.mp (get_eq_error he).1) hf
  | exchangeDemanded index x =>
      refine hanswered _ (exchangeDemanded_meets index x hs) fun f t hf => ?_
      obtain ⟨⟨_, he⟩, hf, _⟩ := hf
      exact .demanded rfl (List.getElem?_eq_none_iff.mp (get_eq_error he).1) hf
  | carry x => exact hcode _ (carry_meets x hs) hnever

/-! ## Operations on bit sequences -/

/-- The iterator that an operation goes through. -/
def BitEdit.feed? : BitEdit → Option (Feed Bool)
  | insertFeed _ feed => some feed
  | extendFeed feed => some feed
  | assignFeed feed => some feed
  | _ => none

/-- The iterator that the operation goes through raises the fault. -/
def BitEdit.CanFault (e : BitEdit) (f : Fault) : Prop :=
  ∃ feed message, e.feed? = some feed ∧ feed.raised? = some message ∧ f = .raised message

namespace ListAct

variable {γ : Type} {G : Fault → Prop}

/-- Looking an index up has no fault. -/
theorem pick_faults (index : Nat) (xs : List γ) : (pick index xs).Meets (Fault.only G) := by
  unfold pick
  split <;> exact trivial

/-- Inserting what is there has no fault. -/
theorem insertAll_faults (position : Nat) (ys xs : List γ) : (insertAll position ys xs).Meets (Fault.only G) := by
  unfold insertAll
  split <;> exact trivial

/-- What an iterator gives faults only if the iterator raises. -/
theorem feedInto_faults {feed : Feed γ} {whole part : List γ}
    (h : ∀ message, feed.raised? = some message → G (.raised message)) :
    (feedInto feed whole part).Meets (Fault.only G) := by
  unfold feedInto
  split
  · exact trivial
  · rename_i message hraised
    exact h message hraised

/-- What picks an element first, and does not fault afterwards. -/
theorem faults_of_pick {index : Nat} {next : γ → ListAct γ β} {xs : List γ}
    (h : ∀ x ys, (next x ys).Meets (Fault.only G)) : ((pick index >>= next) xs).Meets (Fault.only G) :=
  bind_meets.mpr ((pick_faults (G := G) index xs).imp (fun x ys _ => h x ys) (fun _ _ => id) fun _ _ => id)

end ListAct

open ListAct in
/-- On a list, nothing but an iterator faults. -/
theorem BitEdit.onList_faults (e : BitEdit) (xs : List Bool) :
    ((e.onList : ListAct Bool (Answer α)) xs).Meets (Fault.only e.CanFault) := by
  have hfeeds : ∀ {feed : Feed Bool}, e.feed? = some feed → ∀ message, feed.raised? = some message →
      e.CanFault (.raised message) := fun hfeed message hraised => ⟨_, message, hfeed, hraised, rfl⟩
  cases e with
  | insert position value => exact Fault.only_answered _ (insertAll_faults position _ xs)
  | insertCopies position count value => exact Fault.only_answered _ (insertAll_faults position _ xs)
  | insertAll position values => exact Fault.only_answered _ (insertAll_faults position _ xs)
  | insertFeed position feed =>
      refine Fault.only_answered _ ?_
      unfold ListAct.insertFeed
      split
      · exact feedInto_faults (hfeeds rfl)
      · exact trivial
  | extendFeed feed => exact Fault.only_answered _ (feedInto_faults (hfeeds rfl))
  | assignFeed feed => exact Fault.only_answered _ (feedInto_faults (hfeeds rfl))
  | erase index => exact Fault.only_answered _ (faults_of_pick fun _ _ => trivial)
  | get index => exact Fault.only_answered _ (pick_faults index xs)
  | set index value =>
      exact Fault.only_answered _ (bind_meets.mpr (faults_of_pick fun _ _ => trivial))
  | change index changes => exact Fault.only_answered _ (faults_of_pick fun _ _ => trivial)
  | eraseSpan span =>
      refine Fault.only_answered _ (bind_meets.mpr (bind_meets.mpr (ofExcept_meets.mpr ⟨?_, ?_⟩)))
      · exact fun _ _ => trivial
      · exact fun _ _ => trivial
  | _ => exact trivial

/-- **Step.**  What faults in an operation on a bit sequence. -/
theorem BitEdit.perform_faults {s : BitSequence} (e : BitEdit) (hs : BitSequence.Sound m (s, w)) :
    ((e.perform : BitAct σ α (Answer α)) (s, w)).Meets (Fault.only e.CanFault) := by
  refine (e.perform_refines hs).imp (fun _ _ _ => trivial) (fun _ _ _ => trivial) fun f u hf => ?_
  have hlist := e.onList_faults (α := α) s.bits
  rw [hf] at hlist
  exact hlist

/-! ## Commands -/

/-- The fault is raised by code that is not part of the storage; or the command takes for granted an element
that does not exist, or a copy that there is no memory for. -/
inductive Command.CanFault (E : Element σ α) (ws : Workspace σ α) (command : Command σ α) (f : Fault) : Prop
  | element (h : E.CodeRaises f)
  | create {a : Nat} {recipe : Recipe α} {handle : Handle} (hcommand : command = .create a recipe handle)
      (h : recipe.Raises f)
  | createBits {a : Nat} {recipe : Recipe Bool} {handle : Handle}
      (hcommand : command = .createBits a recipe handle) (h : recipe.Raises f)
  | edit {a : Nat} {e : Edit α} {s : Sequence α} (hcommand : command = .edit a e)
      (hs : ws.sequence? a = some s) (h : e.CanFault E s.len f)
  | editBits {a : Nat} {e : BitEdit} (hcommand : command = .editBits a e) (h : e.CanFault f)
  | copyDemanded {a b : Nat} {e : SequenceError} (hcommand : command = .copyDemanded a b) (hlack : e.IsLack)
      (hf : f = .copyRefused e)

namespace Workspace

variable {ws : Workspace σ α} {a b : Nat} {G : Fault → Prop}

/-- A response that is no other fault. -/
def FaultsOnly (G : Fault → Prop) (response : Response α) : Prop := ∀ f, response = .faulted f → G f

theorem faultsOnly_vacant : FaultsOnly G (.vacant : Response α) := by
  intro f hf
  cases hf

/-- An answer is no fault. -/
theorem faultsOnly_answer (answer : Answer α) : FaultsOnly G (.answer answer) := by
  intro f hf
  cases hf

/-- A response has the faults of the act. -/
theorem faultsOnly_ofOutcome {S : Type} {o : Outcome S (Answer α)} (h : o.Meets (Fault.only G)) :
    FaultsOnly G (.ofOutcome o) := by
  intro f hf
  cases o with
  | done answer s => cases hf
  | refused e s => cases hf
  | faulted f' s =>
      cases hf
      exact h

/-- Storing what is made has the faults of its making. -/
theorem store_faults {act : Act (World σ α) (Option (Container α))} {Q : Option (Container α) → Prop}
    {F : Fault → Prop} (h : (act ws.world).Meets (Container.made E m Q F)) (hF : ∀ f, F f → G f) :
    FaultsOnly G (ws.store a act).1 := by
  intro f hf
  have hstores := store_spec (a := a) h
  generalize ws.store a act = result at hstores hf
  cases hstores with
  | vacant _ => cases hf
  | stored _ _ => cases hf
  | invalid _ _ => cases hf
  | refused _ _ => cases hf
  | faulted _ hfault =>
      cases hf
      exact hF _ hfault.2

/-- Where the elements fit, a fault of a copy is one of their code. -/
theorem codeRaises_of_codeFaults {c : Container α} {f : Fault} (hfits : E.toShape.Fits)
    (h : c.CodeFaults E f) : E.CodeRaises f := by
  cases c with
  | elements s => exact h hfits
  | bits s => exact h.elim

/-- A copy between registers has only faults of the code of the elements. -/
theorem copyFrom_faults (a b : Nat) (hfits : E.toShape.Fits) (hs : Sound E 0 ws) :
    FaultsOnly E.CodeRaises (ws.perform E (.copyFrom a b)).1 := by
  refine copyFrom_cases (P := fun result => FaultsOnly E.CodeRaises result.1) faultsOnly_vacant ?_ ?_
  · intro s t hpair o ho
    obtain ⟨hvalid, howns⟩ := hs.parts (pair?_of_some hpair).2.1
    have hcopied := Sequence.copyFrom_faults t hfits ⟨hvalid, howns⟩
    exact faultsOnly_ofOutcome (ho ▸ Fault.only_answered (fun _ => .nothing) hcopied)
  · intro s t hpair o ho
    obtain ⟨_, hc, hd⟩ := pair?_of_some hpair
    obtain ⟨hvalid, howns⟩ := hs.parts hc
    have hcopied := BitSequence.copyFrom_meets (hs.valid b _ hd) ⟨hvalid, howns⟩
    have hnever : (BitSequence.copyFrom t (s, ws.world)).Meets (Fault.only E.CodeRaises) :=
      hcopied.imp (fun _ _ _ => trivial) (fun _ _ _ => trivial) fun f u hf => by cases hf.2
    exact faultsOnly_ofOutcome (ho ▸ Fault.only_answered (fun _ => .nothing) hnever)

theorem moveFrom_faults (a b : Nat) (hfits : E.toShape.Fits) (hs : Sound E 0 ws) :
    FaultsOnly E.CodeRaises (ws.perform E (.moveFrom a b)).1 := by
  refine moveFrom_cases (P := fun result => FaultsOnly E.CodeRaises result.1) faultsOnly_vacant ?_ ?_
  · intro s t hpair o ho
    obtain ⟨hne, hc, hd⟩ := pair?_of_some hpair
    obtain ⟨hvalid, hvalid', howns⟩ := hs.parts_pair hne hc hd
    have hmoved := Sequence.moveFrom_faults hfits ⟨hvalid, hvalid', howns⟩
    exact faultsOnly_ofOutcome (ho ▸ Fault.only_answered (fun _ => .nothing) hmoved)
  · intro s t hpair o ho
    obtain ⟨hne, hc, hd⟩ := pair?_of_some hpair
    obtain ⟨hvalid, hvalid', howns⟩ := hs.parts_pair hne hc hd
    have hmoved := BitSequence.moveFrom_meets ⟨hvalid, hvalid', howns⟩
    have hnever : (BitSequence.moveFrom ((s, t), ws.world)).Meets (Fault.only E.CodeRaises) :=
      hmoved.imp (fun _ _ _ => trivial) (fun _ _ _ => trivial) fun _ _ => False.elim
    exact faultsOnly_ofOutcome (ho ▸ Fault.only_answered (fun _ => .nothing) hnever)

/-- **Step.**  What faults in a command. -/
theorem perform_faults (command : Command σ α) (hfits : E.toShape.Fits) (hs : Sound E 0 ws) :
    FaultsOnly (command.CanFault E ws) (ws.perform E command).1 := by
  have howns : ws.world.Owns (ws.assets E) := hs.owns.of_eq (add_zero _)
  have hcode : ∀ {response : Response α}, FaultsOnly E.CodeRaises response →
      FaultsOnly (command.CanFault E ws) response := fun h f hf => .element (h f hf)
  cases command with
  | create a recipe handle =>
      refine store_faults (recipe.create_meets handle howns) fun f hf => ?_
      exact (hf hfits).elim .element (.create rfl)
  | createBits a recipe handle =>
      exact store_faults (recipe.createBits_meets (E := E) handle howns) fun f => .createBits rfl
  | edit a e =>
      refine (edited_withSequence _).elim (P := fun result => FaultsOnly _ result.1) faultsOnly_vacant ?_
      rintro s hc _ rfl
      obtain ⟨hvalid, howns'⟩ := hs.parts hc
      intro f hf
      exact .edit rfl (sequence?_of_elements hc)
        (faultsOnly_ofOutcome (e.perform_faults hfits ⟨hvalid, howns'⟩) f hf)
  | editBits a e =>
      refine (edited_withBits _).elim (P := fun result => FaultsOnly _ result.1) faultsOnly_vacant ?_
      rintro s hc _ rfl
      obtain ⟨hvalid, howns'⟩ := hs.parts hc
      intro f hf
      exact .editBits rfl (faultsOnly_ofOutcome (e.perform_faults ⟨hvalid, howns'⟩) f hf)
  | copy a b =>
      refine copy_cases (P := fun result => FaultsOnly _ result.1) faultsOnly_vacant fun c hc => ?_
      exact store_faults (Container.copy_meets (hs.valid a c hc) howns)
        fun f hf => .element (codeRaises_of_codeFaults hfits hf)
  | copyDemanded a b =>
      refine copyDemanded_cases (P := fun result => FaultsOnly _ result.1) faultsOnly_vacant fun c hc => ?_
      refine store_faults (Container.copyDemanded_meets (hs.valid a c hc) howns) fun f hf => ?_
      rcases hf with hf | ⟨e, hlack, hf⟩
      · exact .element (codeRaises_of_codeFaults hfits hf)
      · exact .copyDemanded rfl hlack hf
  | copyFrom a b => exact hcode (copyFrom_faults a b hfits hs)
  | moveFrom a b => exact hcode (moveFrom_faults a b hfits hs)
  | discard a =>
      refine consume_cases (P := fun result => FaultsOnly _ result.1) _ faultsOnly_vacant fun c act' hc hact => ?_
      cases hact
      obtain ⟨hvalid, howns'⟩ := hs.parts hc
      refine hcode (faultsOnly_ofOutcome ((discardOne_meets hvalid howns').imp ?_ ?_ ?_))
      · exact fun _ _ _ => trivial
      · exact fun _ _ _ => trivial
      · exact fun f _ hf => codeRaises_of_codeFaults hfits hf.2
  | drain a moves =>
      refine consume_cases (P := fun result => FaultsOnly _ result.1) _ faultsOnly_vacant fun c act' hc hact => ?_
      cases c with
      | bits s => cases hact
      | elements s =>
          cases hact
          obtain ⟨hvalid, howns'⟩ := hs.parts hc
          refine hcode (faultsOnly_ofOutcome ((drainAll_meets moves hvalid howns').imp ?_ ?_ ?_))
          · exact fun _ _ _ => trivial
          · exact fun _ _ _ => trivial
          · exact fun f _ hf => hf.2 hfits
  | setPolicy place policy => exact faultsOnly_answer _
  | setCode code => exact faultsOnly_answer _

end Workspace

end Growable
