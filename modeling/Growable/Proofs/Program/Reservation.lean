import Growable.Proofs.Program.Room
import Growable.Proofs.Program.Uniform

/-!
# Reserved room

Once room was made for a number of items, whatever does not need more is done in that room
(`Workspace.reservation_lasts`): the container stays in its region, no allocator is involved, and nothing is
refused but an index out of bounds.  Between the commands that work on the container, others may do anything
to other containers, and change how the allocators answer.
-/

namespace Growable

open Act

variable {σ α β S : Type} {E : Element σ α} {w : World σ α} {a b n : Nat}

/-! ## Errors of bounds -/

/-- A span out of bounds is no lack of room. -/
theorem Span.not_isLack_of_within {span : Span} {len : Nat} {e : SequenceError}
    (h : span.within len = .error e) : ¬ e.IsLack := by
  have hafter : ∀ {index : Nat}, Bound.after index len = .error e → ¬ e.IsLack := by
    intro index hindex
    unfold Bound.after at hindex
    split at hindex
    · cases hindex
    · cases hindex
      exact id
  have hstart : ∀ lower : Bound, lower.start len = .error e → ¬ e.IsLack := by
    rintro (index | index | _) hlower
    · cases hlower
    · exact hafter hlower
    · cases hlower
  have hstop : ∀ upper : Bound, upper.stop len = .error e → ¬ e.IsLack := by
    rintro (index | index | _) hupper
    · exact hafter hupper
    · cases hupper
    · cases hupper
  unfold within at h
  cases hlower : span.lower.start len with
  | error e' =>
      rw [hlower] at h
      cases h
      exact hstart _ hlower
  | ok start =>
      cases hupper : span.upper.stop len with
      | error e' =>
          rw [hlower, hupper] at h
          cases h
          exact hstop _ hupper
      | ok stop =>
          rw [hlower, hupper] at h
          by_cases hle : stop ≤ len
          · by_cases hlt : stop < start
            · simp only [bind, Except.bind, checkPosition, if_pos hle, if_pos hlt] at h
              cases h
              exact id
            · simp only [bind, Except.bind, checkPosition, if_pos hle, if_neg hlt] at h
              cases h
          · simp only [bind, Except.bind, checkPosition, if_neg hle] at h
            cases h
            exact id

/-- A position out of bounds is no lack of room. -/
theorem not_isLack_of_checkPosition {position len : Nat} {e : SequenceError}
    (h : checkPosition position len = .error e) : ¬ e.IsLack := by
  obtain ⟨_, rfl⟩ := checkPosition_eq_error h
  exact id

/-- An index out of bounds is no lack of room. -/
theorem not_isLack_of_checkIndex {index len : Nat} {e : SequenceError}
    (h : checkIndex index len = .error e) : ¬ e.IsLack := by
  obtain ⟨_, rfl⟩ := checkIndex_eq_error h
  exact id

/-- The error is the same when the bounds themselves are not wanted. -/
theorem not_isLack_of_span {span : Span} {len : Nat} {e : SequenceError}
    (h : (span.within len).map (fun _ => ()) = .error e) : ¬ e.IsLack := by
  cases hwithin : span.within len with
  | ok range =>
      rw [hwithin] at h
      cases h
  | error e' =>
      rw [hwithin] at h
      cases h
      exact Span.not_isLack_of_within hwithin

/-- Bounds that are not valid are not a lack. -/
theorem Edit.not_isLack {s : Sequence α} {e : Edit α} {error : SequenceError}
    (h : e.bounds s = .error error) : ¬ error.IsLack := by
  cases e with
  | insert | insertBy | insertCopies | insertAll | insertFeed => exact not_isLack_of_checkPosition h
  | erase | get | exchange => exact not_isLack_of_checkIndex h
  | eraseSpan span => exact not_isLack_of_span h
  | insertOwn position span =>
      simp only [bounds] at h
      cases hwithin : span.within s.len with
      | ok range =>
          rw [hwithin] at h
          exact not_isLack_of_checkPosition h
      | error e' =>
          rw [hwithin] at h
          cases h
          exact Span.not_isLack_of_within hwithin
  | _ => cases h

/-- The bounds of an operation on a bit sequence are no question of room. -/
theorem BitEdit.not_isLack {s : BitSequence} {e : BitEdit} {error : SequenceError}
    (h : e.bounds s = .error error) : ¬ error.IsLack := by
  cases e with
  | insert | insertCopies | insertAll | insertFeed => exact not_isLack_of_checkPosition h
  | erase | get | set | change => exact not_isLack_of_checkIndex h
  | eraseSpan span => exact not_isLack_of_span h
  | _ => cases h

/-! ## Within the room that there is -/

/-- The claim that an operation keeps the region, has nothing to do with any allocator, and is refused only
for its bounds. -/
def Post.staying (K : Storage S) (s : S) (w : World σ α) : Post (S × World σ α) β :=
  ⟨fun _ u => K.region u.1 = K.region s ∧ w.Evolves (fun e => e.place? = none) u.2,
    fun e u => ¬ e.IsLack ∧ K.region u.1 = K.region s ∧ w.Evolves (fun e => e.place? = none) u.2,
    fun _ u => K.region u.1 = K.region s ∧ w.Evolves (fun e => e.place? = none) u.2⟩

/-- A demand that the capacity meets stays in its region and requests nothing. -/
theorem Demand.Governs.staying {K : Storage S} {d : Demand} {given : Option α} {s : S}
    {o : Outcome (S × World σ α) β} (h : d.Governs K given s w o) (hroom : d.required ≤ K.capacity s)
    (hbounds : ∀ e, d.bounds = .error e → ¬ e.IsLack) : o.Meets (.staying K s w) := by
  cases hd : d.bounds with
  | ok => exact (h.stays hd hroom).imp (fun _ _ => id) (fun _ _ => False.elim) (fun _ _ => id)
  | error e =>
      apply (h.invalid e hd).imp
      · exact fun _ _ => False.elim
      · rintro _ u ⟨rfl, hsame, hw⟩
        exact ⟨hbounds _ hd, congrArg K.region hsame, hw.evolves⟩
      · rintro _ u ⟨hsame, hw⟩
        exact ⟨congrArg K.region hsame, hw.evolves⟩

/-- Clones of a sequence whose handle does not come along. -/
theorem Sequence.copyFrom_governed {s t : Sequence α} (hlen : s.len ≤ s.capacity)
    (hfits : s.capacity ≤ s.maxSize E) (hstill : t.handle.propagates = false) :
    Demand.Governs (storage E) ⟨.ok (), t.len, false⟩ none s w (copyFrom E t (s, w)) := by
  have hassigned : Demand.Answered (storage E) ⟨.ok (), t.len, false⟩ none s w
      (assignAll E t.items (s, w)) :=
    assignMade_answered hlen hfits (fun _ => aside_ofOption _ _) t.items.length
  rw [copyFrom, held_bind, hstill]
  exact hassigned.governs.bind fun _ => settles_pure _ _

/-- A copy of the bits of a bit sequence whose handle does not come along. -/
theorem BitSequence.copyFrom_governed {s t : BitSequence} (hlen : s.len ≤ s.capacity)
    (hfits : s.capacity ≤ s.maxSize) (hstill : t.handle.propagates = false) :
    Demand.Governs storage ⟨.ok (), t.len, false⟩ none s w (copyFrom t (s, w)) := by
  have hwritten : Settles storage (writeWords t.asWords : BitAct σ α Unit) :=
    settles_of_keeps (firm_changeWords _) fun _ _ _ => keeps_writeWords _
  rw [copyFrom, held_bind, hstill]
  apply (reserve_answered hlen hfits t.len).governs.bind
  intro _
  exact hwritten.bind fun _ => (settles_truncate t.len).bind fun _ => (settles_setLen t.len).bind
    fun _ => settles_pure _ _

namespace Container

/-- The two containers lie in the same memory, and have room for as many items. -/
structure SameRoom (c d : Container α) : Prop where
  region : c.region = d.region
  capacity : c.capacity = d.capacity

/-- Having the same room is transitive. -/
theorem SameRoom.trans {c d d' : Container α} (h : c.SameRoom d) (h' : d.SameRoom d') : c.SameRoom d' :=
  ⟨h.region.trans h'.region, h.capacity.trans h'.capacity⟩

/-- Sequences with one region have the same room. -/
theorem sameRoom_elements {s t : Sequence α} (h : s.region = t.region) :
    (elements s).SameRoom (elements t) :=
  ⟨h, congrArg Region.capacity h⟩

theorem sameRoom_bits {s t : BitSequence} (h : s.region = t.region) :
    (bits s : Container α).SameRoom (bits t) :=
  ⟨h, BitSequence.capacity_eq_of_region h⟩

end Container

/-! ## Other registers -/

/-- The command does not work on the register. -/
def Command.Spares (a : Nat) : Command σ α → Prop
  | create b _ _ => a ≠ b
  | createBits b _ _ => a ≠ b
  | edit b _ => a ≠ b
  | editBits b _ => a ≠ b
  | copy _ b => a ≠ b
  | copyDemanded _ b => a ≠ b
  | copyFrom b _ => a ≠ b
  | moveFrom b c => a ≠ b ∧ a ≠ c
  | discard b => a ≠ b
  | drain b _ => a ≠ b
  | setPolicy _ _ => True
  | setCode _ => True

namespace Workspace

variable {ws : Workspace σ α}

/-- A container that was replaced is given up outside the registers. -/
theorem container?_settle (replaced : Option (Container α)) :
    (ws.settle E replaced).container? a = ws.container? a := by
  cases replaced <;> rfl

section Frame

variable (h : a ≠ b)

include h

/-- Setting one register leaves the others. -/
theorem container?_put_of_ne (slot : Option (Container α)) :
    (ws.put b slot).container? a = ws.container? a := by
  unfold container? put
  rw [List.getElem?_set_ne h.symm]

/-- Storing in one register leaves the others. -/
theorem container?_store_of_ne (act : Act (World σ α) (Option (Container α))) :
    (ws.store b act).2.2.container? a = ws.container? a := by
  unfold store
  split
  · split
    · exact container?_put_of_ne h _
    all_goals rfl
  · rfl

/-- Editing one register leaves the others. -/
theorem Edited.container?_of_ne {S : Type} {into : S → Container α}
    {act : Act (S × World σ α) (Answer α)} {result : Response α × Workspace σ α}
    (hedited : Edited into ws b act result) : result.2.container? a = ws.container? a := by
  cases hedited with
  | vacant _ => rfl
  | found _ _ => exact container?_put_of_ne h _

/-- Using one container up leaves the others. -/
theorem container?_consume_of_ne (act : Container α → Option (Act (World σ α) (Answer α))) :
    (ws.consume b act).2.container? a = ws.container? a := by
  unfold consume
  split
  · rfl
  · exact container?_put_of_ne h none

end Frame

/-- **Frame.**  What does not work on a register leaves it as it is. -/
theorem container?_run_of_spares {command : Command σ α} (h : command.Spares a) :
    (ws.run E command).2.container? a = ws.container? a := by
  have hrun : (ws.run E command).2 = (ws.perform E command).2.2.settle E (ws.perform E command).2.1 := rfl
  rw [hrun, container?_settle]
  cases command with
  | create b recipe handle => exact container?_store_of_ne h _
  | createBits b recipe handle => exact container?_store_of_ne h _
  | edit b e => exact (edited_withSequence _).container?_of_ne h
  | editBits b e => exact (edited_withBits _).container?_of_ne h
  | copy b c =>
      simp only [perform]
      split
      · rfl
      · exact container?_store_of_ne h _
  | copyDemanded b c =>
      simp only [perform]
      split
      · rfl
      · exact container?_store_of_ne h _
  | copyFrom b c =>
      simp only [perform]
      split
      · rfl
      · exact (edited_withSequence _).container?_of_ne h
      · exact (edited_withBits _).container?_of_ne h
  | moveFrom b c =>
      simp only [perform]
      split
      · rfl
      · unfold withSequences
        split
        · exact (container?_put_of_ne h.2 _).trans (container?_put_of_ne h.1 _)
        · rfl
      · unfold withBitSequences
        split
        · exact (container?_put_of_ne h.2 _).trans (container?_put_of_ne h.1 _)
        · rfl
  | discard b => exact container?_consume_of_ne h _
  | drain b moves => exact container?_consume_of_ne h _
  | setPolicy place policy => rfl
  | setCode code => rfl

/-! ## One command -/

/-- A command left the container in the register where it was: it had nothing to do with any allocator, and
was refused, if at all, only for its bounds. -/
structure Stays (a : Nat) (ws : Workspace σ α) (result : Response α × Workspace σ α) : Prop where
  room : ∀ c, ws.container? a = some c → ∃ d, result.2.container? a = some d ∧ d.SameRoom c
  unasked : ws.world.Evolves (fun e => e.place? = none) result.2.world
  refused : ∀ e, result.1 = .refused e → ¬ e.IsLack

/-- With nothing done, the container stays. -/
theorem stays_vacant : Stays a ws (.vacant, ws) :=
  ⟨fun c hc => ⟨c, hc, rfl, rfl⟩, .refl _, nofun⟩

/-- An act that stays in its region leaves a container with the same room. -/
theorem stays_of_staying {K : Storage S} {s : S} {into : S → Container α}
    {o : Outcome (S × World σ α) (Answer α)} (hc : ws.container? a = some (into s))
    (hinto : ∀ t, K.region t = K.region s → (into t).SameRoom (into s))
    (h : o.Meets (.staying K s ws.world)) :
    Stays a ws (.ofOutcome o, { ws.put a (some (into o.state.1)) with world := o.state.2 }) := by
  have hput : ∀ d, (ws.put a (some d)).container? a = some d := by
    intro d
    rw [container?_put _ (lt_of_container? hc), if_pos rfl]
  have hroom : ∀ t, K.region t = K.region s → ∀ c, ws.container? a = some c →
      ∃ d, (ws.put a (some (into t))).container? a = some d ∧ d.SameRoom c := by
    intro t ht c hc'
    rw [hc] at hc'
    cases hc'
    exact ⟨into t, hput _, hinto t ht⟩
  cases o with
  | done answer u => exact ⟨hroom u.1 h.1, h.2, nofun⟩
  | refused e u =>
      refine ⟨hroom u.1 h.2.1, h.2.2, ?_⟩
      rintro _ ⟨⟩
      exact h.1
  | faulted f u => exact ⟨hroom u.1 h.1, h.2, nofun⟩

/-- An edit stays if its act does. -/
theorem Edited.stays {K : Storage S} {into : S → Container α} {act : Act (S × World σ α) (Answer α)}
    {result : Response α × Workspace σ α} (hedited : Edited into ws a act result)
    (hroom : ∀ {s t}, K.region t = K.region s → (into t).SameRoom (into s))
    (h : ∀ s, ws.container? a = some (into s) → (act (s, ws.world)).Meets (.staying K s ws.world)) :
    Stays a ws result := by
  cases hedited with
  | vacant _ => exact stays_vacant
  | found hc ho => exact stays_of_staying hc (fun _ => hroom) (ho ▸ h _ hc)

end Workspace

/-- The command works on the register, and needs room there for no more than `n` items. -/
def Command.StaysWithin (ws : Workspace σ α) (a n : Nat) : Command σ α → Prop
  | edit b e => b = a ∧ e ≠ .shrink ∧ ∀ s, ws.sequence? a = some s → e.reach s ≤ n
  | editBits b e => b = a ∧ e ≠ .shrink ∧ ∀ t, ws.bitSequence? a = some t → e.reach t ≤ n
  | copyFrom b c =>
    b = a ∧ ∀ d, ws.container? c = some d → d.handle.propagates = false ∧ d.len ≤ n
  | _ => False

namespace Workspace

variable {ws : Workspace σ α} {limit : Nat} {c : Container α}

/-- **Step.**  What needs no more room than there is leaves the container where it is. -/
theorem Uniform.stays (hu : Uniform E limit ws) (hc : ws.container? a = some c) (hroom : n ≤ c.capacity)
    {command : Command σ α} (h : command.StaysWithin ws a n) : Stays a ws (ws.run E command) := by
  have hs := hu.bounded.sound
  have hsequence : ∀ {s}, ws.sequence? a = some s → n ≤ s.capacity := by
    intro s hsome
    obtain rfl := Option.some.inj (hc.symm.trans (container?_of_sequence? hsome))
    exact hroom
  have hbits : ∀ {t}, ws.bitSequence? a = some t → n ≤ t.capacity := by
    intro t hsome
    obtain rfl := Option.some.inj (hc.symm.trans (container?_of_bitSequence? hsome))
    exact hroom
  cases command with
  | edit b e =>
      obtain ⟨rfl, hshrink, hreach⟩ := h
      refine (edited_withSequence _).stays (K := Sequence.storage E) Container.sameRoom_elements fun s hs' => ?_
      have hsome := sequence?_of_elements hs'
      have hgoverned := e.perform_governed (fitting_sequence hs hu.admitted hsome) hshrink
      exact hgoverned.staying ((hreach s hsome).trans (hsequence hsome)) fun _ => Edit.not_isLack
  | editBits b e =>
      obtain ⟨rfl, hshrink, hreach⟩ := h
      refine (edited_withBits _).stays (K := BitSequence.storage) Container.sameRoom_bits fun t ht => ?_
      have hsome := bitSequence?_of_bits ht
      have hgoverned := e.perform_governed (fitting_bitSequence hs hu.admitted hsome) hshrink
      exact hgoverned.staying ((hreach t hsome).trans (hbits hsome)) fun _ => BitEdit.not_isLack
  | copyFrom b other =>
      obtain ⟨rfl, hother⟩ := h
      refine copyFrom_cases (P := fun result => Stays b ws (result.1, result.2.2.settle E result.2.1))
        stays_vacant ?_ ?_
      · intro s t hpair o ho
        obtain ⟨_, hs', ht⟩ := pair?_of_some hpair
        have hsome := sequence?_of_elements hs'
        obtain ⟨hstill, hlen⟩ := hother _ ht
        obtain ⟨hfull, hfits⟩ := hu.sequence hsome
        have hcopied : o.Meets (.staying (Sequence.storage E) s ws.world) :=
          ho ▸ (Sequence.copyFrom_governed hfull hfits hstill).answer.staying
            (hlen.trans (hsequence hsome)) nofun
        exact stays_of_staying hs' (fun _ => Container.sameRoom_elements) hcopied
      · intro s t hpair o ho
        obtain ⟨_, hs', ht⟩ := pair?_of_some hpair
        have hsome := bitSequence?_of_bits hs'
        obtain ⟨hstill, hlen⟩ := hother _ ht
        obtain ⟨hfull, hfits⟩ := hu.bitSequence hsome
        have hcopied : o.Meets (.staying BitSequence.storage s ws.world) :=
          ho ▸ (BitSequence.copyFrom_governed hfull hfits hstill).answer.staying
            (hlen.trans (hbits hsome)) nofun
        exact stays_of_staying hs' (fun _ => Container.sameRoom_bits) hcopied
  | create | createBits | copy | copyDemanded | moveFrom | discard | drain | setPolicy | setCode => cases h

/-- Every command leaves the register alone, or needs room there for no more than `n` items. -/
def Modest (E : Element σ α) (a n : Nat) (ws : Workspace σ α) : List (Command σ α) → Prop
  | [] => True
  | command :: rest =>
    (command.Spares a ∨ command.StaysWithin ws a n) ∧ Modest E a n (ws.run E command).2 rest

/-- Every command leaves the register alone, or leaves the container there where it was. -/
def Undisturbed (E : Element σ α) (a : Nat) (ws : Workspace σ α) : List (Command σ α) → Prop
  | [] => True
  | command :: rest =>
    (command.Spares a ∨ Stays a ws (ws.run E command)) ∧ Undisturbed E a (ws.run E command).2 rest

/-- **Run.**  A container with room enough stays where it is. -/
theorem Uniform.runAll_stays (hu : Uniform E limit ws) (hc : ws.container? a = some c)
    (hroom : n ≤ c.capacity) (commands : List (Command σ α))
    (hcommands : ∀ command ∈ commands, ∀ h, command.handle? = some h → h.maxBytes = limit)
    (hmodest : Modest E a n ws commands) :
    Undisturbed E a ws commands ∧
      ∃ d, (ws.runAll E commands).2.container? a = some d ∧ d.SameRoom c := by
  induction commands generalizing ws c with
  | nil => exact ⟨trivial, c, hc, rfl, rfl⟩
  | cons command rest ih =>
      obtain ⟨hfirst, hrest⟩ := hmodest
      have hstep : (command.Spares a ∨ Stays a ws (ws.run E command)) ∧
          ∃ d, (ws.run E command).2.container? a = some d ∧ d.SameRoom c := by
        rcases hfirst with hspares | hwithin
        · exact ⟨.inl hspares, c, (container?_run_of_spares hspares).trans hc, rfl, rfl⟩
        · have hstays := hu.stays hc hroom hwithin
          exact ⟨.inr hstays, hstays.room c hc⟩
      obtain ⟨hdone, d, hd, hsame⟩ := hstep
      have hu' := hu.run command (hcommands command List.mem_cons_self)
      have hlater := fun next hnext => hcommands next (List.mem_cons_of_mem _ hnext)
      obtain ⟨hlast, d', hd', hsame'⟩ := ih hu' hd (hroom.trans_eq hsame.capacity.symm) hlater hrest
      exact ⟨⟨hdone, hlast⟩, d', hd', hsame'.trans hsame⟩

/-- Where all commands work on the register, no allocator is involved in any of them, and none is refused for
lack of memory or of capacity. -/
theorem Undisturbed.alone {commands : List (Command σ α)} (h : Undisturbed E a ws commands)
    (halone : ∀ command ∈ commands, ¬ command.Spares a) :
    ws.world.Evolves (fun e => e.place? = none) (ws.runAll E commands).2.world ∧
      ∀ e, .refused e ∈ (ws.runAll E commands).1 → ¬ e.IsLack := by
  induction commands generalizing ws with
  | nil => exact ⟨.refl _, nofun⟩
  | cons command rest ih =>
      obtain ⟨hfirst, hrest⟩ := h
      have hstays := hfirst.resolve_left (halone command List.mem_cons_self)
      obtain ⟨hlater, hrefused⟩ := ih hrest fun next hnext => halone next (List.mem_cons_of_mem _ hnext)
      refine ⟨hstays.unasked.trans hlater, fun e he => ?_⟩
      rcases List.mem_cons.mp he with he | he
      · exact hstays.refused e he.symm
      · exact hrefused e he

end Workspace

/-! ## Making room -/

/-- The operation makes room for `n` elements. -/
def Edit.Reserves (s : Sequence α) (n : Nat) (e : Edit α) : Prop :=
  e = .reserve n ∨ ∃ additional, e = .reserveMore additional ∧ s.len + additional = n

/-- The operation makes room for `n` bits. -/
def BitEdit.Reserves (s : BitSequence) (n : Nat) (e : BitEdit) : Prop :=
  e = .reserve n ∨ ∃ additional, e = .reserveMore additional ∧ s.len + additional = n

/-- The command makes room for `n` items in the register. -/
def Command.Reserves (ws : Workspace σ α) (a n : Nat) : Command σ α → Prop
  | create b recipe _ => b = a ∧ recipe = .withCapacity n
  | createBits b recipe _ => b = a ∧ recipe = .withCapacity n
  | edit b e => b = a ∧ ∀ s, ws.sequence? a = some s → e.Reserves s n
  | editBits b e => b = a ∧ ∀ t, ws.bitSequence? a = some t → e.Reserves t n
  | _ => False

/-- The claim that a container has room for `n` items if the act is done. -/
def Post.roomy (n : Nat) (capacity : S → Nat) : Post S β :=
  ⟨fun _ s => n ≤ capacity s, fun _ _ => True, fun _ _ => True⟩

/-- What reserves for a sequence leaves at least that room. -/
theorem Edit.Reserves.perform_roomy {m : Multiset (Asset α)} {s : Sequence α} {e : Edit α}
    (h : e.Reserves s n) (hs : Sequence.Sound E m (s, w)) :
    (e.perform E (s, w)).Meets (.roomy n fun u => u.1.capacity) := by
  obtain rfl | ⟨additional, rfl, rfl⟩ := h
  · apply bind_meets.mpr
    exact (Sequence.reserve_meets n hs).imp (fun _ _ hu => hu.2.2.2) (fun _ _ _ => trivial)
      (fun _ _ _ => trivial)
  · apply bind_meets.mpr
    exact (Sequence.reserveMore_meets additional hs).imp (fun _ _ hu => hu.2.2.2)
      (fun _ _ _ => trivial) (fun _ _ _ => trivial)

/-- What reserves for a bit sequence leaves at least that room. -/
theorem BitEdit.Reserves.perform_roomy {m : Multiset (Asset α)} {s : BitSequence} {e : BitEdit}
    (h : e.Reserves s n) (hs : BitSequence.Sound m (s, w)) :
    (e.perform (s, w)).Meets (.roomy n fun u => u.1.capacity) := by
  obtain rfl | ⟨additional, rfl, rfl⟩ := h
  · apply bind_meets.mpr
    exact (BitSequence.reserve_meets n hs).imp (fun _ _ hu => hu.2.2.2.2) (fun _ _ _ => trivial)
      (fun _ _ _ => trivial)
  · apply bind_meets.mpr
    exact (BitSequence.reserveMore_meets additional hs).imp (fun _ _ hu => hu.2.2.2.2)
      (fun _ _ _ => trivial) (fun _ _ _ => trivial)

namespace Workspace

variable {ws : Workspace σ α} {limit : Nat} {c : Container α}

/-- The container in the register has room for `n` items. -/
def Roomy (a n : Nat) (ws : Workspace σ α) : Prop := ∃ c, ws.container? a = some c ∧ n ≤ c.capacity

/-- A container made with that room has it in its register. -/
theorem store_roomy {act : Act (World σ α) (Option (Container α))}
    (h : (act ws.world).Meets ⟨fun slot _ => ∀ c, slot = some c → n ≤ c.capacity, fun _ _ => True,
      fun _ _ => True⟩)
    (hdone : (ws.store a act).1 = .answer .nothing) : Roomy a n (ws.store a act).2.2 := by
  have hstores := store_spec (a := a) h
  generalize ws.store a act = result at hstores hdone
  cases hstores with
  | stored ha hc => exact ⟨_, (container?_put _ ha a).trans (if_pos rfl), hc _ rfl⟩
  | vacant | invalid | refused | faulted => cases hdone

/-- An edit that succeeds leaves the room its act left. -/
theorem Edited.roomy {S : Type} {into : S → Container α} {act : Act (S × World σ α) (Answer α)}
    {result : Response α × Workspace σ α} (hedited : Edited into ws a act result)
    (h : ∀ s, ws.container? a = some (into s) →
      (act (s, ws.world)).Meets (.roomy n fun u => (into u.1).capacity))
    (hdone : result.1 = .answer .nothing) : Roomy a n result.2 := by
  cases hedited with
  | vacant _ => cases hdone
  | @found s o hc ho =>
      have hroom : o.Meets (.roomy n fun u => (into u.1).capacity) := ho ▸ h s hc
      cases o with
      | done answer u => exact ⟨_, (container?_put _ (lt_of_container? hc) a).trans (if_pos rfl), hroom⟩
      | refused | faulted => cases hdone

/-- The room is there when the command is done. -/
theorem run_roomy (hs : Sound E 0 ws) {command : Command σ α} (h : command.Reserves ws a n)
    (hdone : (ws.run E command).1 = .answer .nothing) : Roomy a n (ws.run E command).2 := by
  have hrun : (ws.run E command).2 = (ws.perform E command).2.2.settle E (ws.perform E command).2.1 := rfl
  unfold Roomy
  rw [hrun, container?_settle]
  cases command with
  | create b recipe handle =>
      obtain ⟨rfl, rfl⟩ := h
      apply store_roomy _ hdone
      simp only [Recipe.create, bind_meets, pure_meets]
      apply (Sequence.withCapacity_meets n handle hs.owns).imp _ (fun _ _ _ => trivial)
        (fun _ _ _ => trivial)
      rintro s w ⟨_, _, _, hroom⟩ _ ⟨⟩
      exact hroom
  | createBits b recipe handle =>
      obtain ⟨rfl, rfl⟩ := h
      apply store_roomy _ hdone
      simp only [Recipe.createBits, bind_meets, pure_meets]
      apply (BitSequence.withCapacity_meets n handle hs.owns).imp _ (fun _ _ _ => trivial)
        (fun _ _ _ => trivial)
      rintro s w ⟨_, _, _, hroom⟩ _ ⟨⟩
      exact hroom
  | edit b e =>
      obtain ⟨rfl, hreserves⟩ := h
      refine (edited_withSequence _).roomy (fun s hc => ?_) hdone
      obtain ⟨hvalid, howns⟩ := hs.parts hc
      exact (hreserves s (sequence?_of_elements hc)).perform_roomy ⟨hvalid, howns⟩
  | editBits b e =>
      obtain ⟨rfl, hreserves⟩ := h
      refine (edited_withBits _).roomy (fun t hc => ?_) hdone
      obtain ⟨hvalid, howns⟩ := hs.parts hc
      exact (hreserves t (bitSequence?_of_bits hc)).perform_roomy ⟨hvalid, howns⟩
  | copy | copyDemanded | copyFrom | moveFrom | discard | drain | setPolicy | setCode => cases h

/-- After the later commands, the container in the register is where it was before them, with as much room, which
is enough for `n` items; and none of them disturbed it.  If they all worked on it, then no allocator was involved
in any of them, and none was refused for lack of memory or of capacity. -/
structure Reserved (E : Element σ α) (a n : Nat) (ws : Workspace σ α) (later : List (Command σ α)) : Prop where
  room : ∃ c, ws.container? a = some c ∧ n ≤ c.capacity ∧
    ∃ d, (ws.runAll E later).2.container? a = some d ∧ d.SameRoom c
  undisturbed : Undisturbed E a ws later
  alone : (∀ command ∈ later, ¬ command.Spares a) →
    ws.world.Evolves (fun e => e.place? = none) (ws.runAll E later).2.world ∧
      ∀ e, .refused e ∈ (ws.runAll E later).1 → ¬ e.IsLack

/-- **Reservation.**  In a program whose handles all have the same limit, a command makes room for `n` items,
by reserving or by creating the container with so much.  From then on, for as long as no command needs more
room in the container, it stays in its region with its capacity, and none of the commands that work on it has
anything to do with any allocator, nor is refused for lack of memory or of capacity, however the allocators
answer in the meantime. -/
theorem reservation_lasts (E : Element σ α) (registers : Nat) (accounts : List Account) (code : σ)
    (limit a n : Nat) (before later : List (Command σ α)) (reserve : Command σ α)
    (hlimit : ∀ command ∈ before ++ reserve :: later, ∀ h, command.handle? = some h → h.maxBytes = limit) :
    let ws := (runAll E (initial registers accounts code) before).2
    let reserved := (ws.run E reserve).2
    reserve.Reserves ws a n → (ws.run E reserve).1 = .answer .nothing → Modest E a n reserved later →
      Reserved E a n reserved later := by
  intro ws reserved hreserves hdone hmodest
  have hbefore : ∀ command ∈ before, ∀ h, command.handle? = some h → h.maxBytes = limit :=
    fun command hcommand => hlimit command (List.mem_append_left _ hcommand)
  have hreserve : ∀ h, reserve.handle? = some h → h.maxBytes = limit :=
    hlimit reserve (List.mem_append_right _ List.mem_cons_self)
  have hlater : ∀ command ∈ later, ∀ h, command.handle? = some h → h.maxBytes = limit :=
    fun command hcommand => hlimit command (List.mem_append_right _ (List.mem_cons_of_mem _ hcommand))
  have hu : Uniform E limit ws := (uniform_initial registers accounts code).runAll before hbefore
  have hreserved : Uniform E limit reserved := hu.run reserve hreserve
  obtain ⟨c, hc, hroom⟩ : Roomy a n reserved := run_roomy hu.bounded.sound hreserves hdone
  obtain ⟨hundisturbed, hsame⟩ := hreserved.runAll_stays hc hroom later hlater hmodest
  exact ⟨⟨c, hc, hroom, hsame⟩, hundisturbed, hundisturbed.alone⟩

/-- Room for three numbers is made, and every further request is declined.  Three numbers are put in, two of
them by an iterator, and taken out again, while another sequence is refused any room. -/
theorem reservation_lasts_declined :
    let E : Element Unit Nat := .plain ⟨4, 4⟩ 0
    let handle : Handle := .of ⟨0, .numbered 0⟩
    let reserve : Command Unit Nat := .create 0 (.withCapacity 3) handle
    let later : List (Command Unit Nat) := [.setPolicy 0 fun _ _ => false, .create 1 (.ofList [1]) handle,
      .edit 0 (.push 7), .edit 0 (.extendFeed (.yield 8 (.yield 9 .finish))), .edit 0 .clear]
    let reserved := ((initial 2 [.unlimited] () : Workspace Unit Nat).run E reserve).2
    let ws := (reserved.runAll E later).2
    Modest E 0 3 reserved later ∧ (ws.sequence? 0).map (fun s => (s.len, s.capacity)) = some (0, 3) ∧
      Reserved E 0 3 reserved later := by
  intro E handle reserve later reserved ws
  have hlimit : ∀ command ∈ [] ++ reserve :: later, ∀ h, command.handle? = some h →
      h.maxBytes = Size.blockLimit := by
    simp [reserve, later, Command.handle?, handle, Handle.of]
  have hwithin : ∀ (ws : Workspace Unit Nat) (e : Edit Nat), e ≠ .shrink →
      (ws.sequence? 0).all (fun s => decide (e.reach s ≤ 3)) = true →
      (Command.edit 0 e : Command Unit Nat).StaysWithin ws 0 3 := by
    intro ws e hshrink hall
    refine ⟨rfl, hshrink, fun s hs => ?_⟩
    rw [hs] at hall
    exact of_decide_eq_true hall
  have hmodest : Modest E 0 3 reserved later :=
    ⟨.inl trivial, .inl Nat.zero_ne_one, .inr (hwithin _ _ nofun (by decide +kernel)),
      .inr (hwithin _ _ nofun (by decide +kernel)), .inr (hwithin _ _ nofun (by decide +kernel)), trivial⟩
  have hdone : ((initial 2 [.unlimited] () : Workspace Unit Nat).run E reserve).1 = .answer .nothing := by
    simp only [E, reserve, handle]
    rfl
  exact ⟨hmodest, by decide +kernel, reservation_lasts E 2 [.unlimited] () Size.blockLimit 0 3 [] later reserve
    hlimit ⟨rfl, rfl⟩ hdone hmodest⟩

end Workspace

end Growable
