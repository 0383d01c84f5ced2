import Growable.Probe
import Growable.Proofs.Growth
import Growable.Proofs.Program.Capacity
import Growable.Proofs.Program.Responses
import Growable.Proofs.Program.Room

/-!
# Growth over a run of pushes

Items are pushed one by one onto a container that had no room at first.  One push either puts its item into the room
that there is, or makes the next room by the growth policy, or an allocator declined (`Workspace.run_lengthens`).  So
the growth of the container over a run of pushes, as it can be read off its capacities (`Workspace.growths`), is known
in closed form (`Workspace.runAll_lengthens`), and its cost is linear in the number of pushes
(`Workspace.pushes_amortized`).

A container that is as long as its handle admits refuses another item.  An element that is refused is dropped, and
what this drop raises takes the place of the refusal (`Workspace.full_push_faults`).
-/

namespace Growable

open Act

variable {σ α : Type} {E : Element σ α} {w : World σ α} {m : Multiset (Asset α)}

/-! ## One push -/

namespace Sequence

variable {s : Sequence α}

/-- A push of what the handle admits is interrupted only where an allocator declined. -/
theorem push_interrupted (hshape : E.toShape.Lawful) (hs : Fitting E m (s, w)) (hmax : s.len < s.maxSize E)
    (x : α) : (push E x (s, w)).Meets
      ⟨fun _ _ => True, fun _ _ => True, fun _ u => w.Declines u.2⟩ := by
  have hchore : ∀ e : Event α, e.Chore → e.place? = none := Event.chore_of_unasked fun _ => id
  have hlimit : s.maxSize E ≤ Size.limit := s.handle.maxSize_le_limit E.bytes
  simp only [push, bind_meets, inWorld_meets]
  apply ((World.receive_meets x hs.sound.owns).and (World.keeps_receive hchore x w (.refl w))).imp
  · intro _ w₁ hw₁
    obtain ⟨howns, htaken⟩ := hw₁
    have hgiven : Sound E ({.element x} + m) (s, w₁) := ⟨hs.sound.valid, howns.of_eq (add_left_comm _ _ _)⟩
    have hpushed := (pushBy_answered (w := w₁) hs.sound.valid.len_le hs.fits (aside_pure x)).widened
      hshape hmax hlimit
    apply onRefusal_meets.mpr
    apply (hpushed.and (pushBy_meets hgiven (Act.produces_pure x))).imp
    · exact fun _ _ _ => trivial
    · intro e u hu
      obtain ⟨t, w₂⟩ := u
      -- What is refused is dropped, and this drop may fault.
      apply inWorld_meets.mpr
      apply (E.keeps_drop hchore false x w₂ (.refl w₂)).imp
      · exact fun _ _ _ => trivial
      · exact fun _ _ _ => trivial
      · exact fun _ _ hw₃ => (hu.1.before hw₃).after htaken
    · intro f u hu
      obtain ⟨-, -, -, hmade⟩ := hu
      obtain ⟨_, _, _, _, hnever, _⟩ := hmade hshape.fits
      exact hnever.elim
  · exact fun _ _ _ => trivial
  · exact fun _ _ hw => hw.1.elim

/-- A push of what the handle admits puts the element in, and makes room for it where there is none, unless an
allocator declines. -/
theorem push_widened (hshape : E.toShape.Lawful) (hs : Fitting E m (s, w)) (hmax : s.len < s.maxSize E)
    (x : α) : (push E x (s, w)).Meets
      ⟨fun _ u => u.1.handle = s.handle ∧ u.1.len = s.len + 1 ∧ (storage E).Widens s w s.len u,
        fun _ u => w.Declines u.2, fun _ u => w.Declines u.2⟩ := by
  have hlimit : s.maxSize E ≤ Size.limit := s.handle.maxSize_le_limit E.bytes
  have hpushed := (push_answered (w := w) hs.sound.valid.len_le hs.fits x).widened hshape hmax hlimit
  apply ((hpushed.and (push_meets x hs.sound)).and (push_interrupted hshape hs hmax x)).imp
  · intro _ u hu
    obtain ⟨⟨hwidens, -, hhandle, hitems⟩, -⟩ := hu
    have hlen : u.1.len = s.len + 1 := by rw [len, hitems, List.length_append, List.length_singleton, len]
    exact ⟨hhandle, hlen, hwidens⟩
  · exact fun _ _ hu => hu.1.1
  · exact fun _ _ hu => hu.2

/-- Where the handle admits no more, nothing is made, and the push is refused. -/
theorem pushBy_full {make : Act (World σ α) α} (hfull : s.len = s.capacity) (hmax : s.maxSize E = s.capacity) :
    pushBy E make (s, w) = .refused .capacityExceeded (s, w) := by
  have hgrow : Capacity.grow s.capacity (s.len + 1) (s.maxSize E) = .error .capacityExceeded :=
    Capacity.grow_of_lt (by omega)
  rw [pushBy, held_bind, if_pos hfull, pushGrown, held_bind]
  cases hrequired : s.required 1 with
  | error e =>
      obtain rfl := required_eq_error hrequired
      rfl
  | ok n =>
      obtain rfl := required_eq_ok hrequired
      rw [ofExcept_bind_ok, hgrow]
      rfl

end Sequence

namespace BitSequence

variable {s : BitSequence}

/-- A push that succeeds has one more bit, under the same handle, and has grown only if it was full. -/
theorem push_widened (hs : Fitting m (s, w)) (hmax : s.len < s.maxSize) (value : Bool) :
    (push value (s, w)).Meets
      ⟨fun _ u => u.1.handle = s.handle ∧ u.1.len = s.len + 1 ∧ storage.Widens s w s.len u,
        fun _ u => w.Declines u.2, fun _ u => w.Declines u.2⟩ := by
  have hkept := keeps_push (P := fun _ => True) (Q := fun _ => True)
    (fun _ _ => trivial) s.handle.maxBytes_le (fun _ _ => trivial) value (s, w) ⟨⟨rfl, trivial⟩, .refl w⟩
  have hpushed := (push_answered (w := w) hs.sound.valid.len_le hs.fits value).widened
    Word.lawful_shape hmax s.maxWords_le_limit
  apply ((hpushed.and (hs.push value)).and ((push_meets value hs.sound).and hkept)).imp
  · intro _ u hu
    obtain ⟨⟨hwidens, ⟨-, hlen, -⟩, -⟩, -, hunder⟩ := hu
    exact ⟨hunder.1.1, hlen, hwidens⟩
  · exact fun _ _ hu => hu.1.1
  · intro f u hu
    obtain ⟨-, ⟨-, hfaulted⟩, -⟩ := hu
    cases hfaulted

/-- At the limit of the handle a push is refused, with nothing changed. -/
theorem push_full (hfull : s.len = s.capacity) (hmax : s.maxSize = s.capacity) (value : Bool) :
    push value (s, w) = .refused .capacityExceeded (s, w) := by
  have hmore : ¬ s.len + 1 ≤ s.capacity := by omega
  have hgrow : Capacity.grow s.capacity (s.len + 1) s.maxSize = .error .capacityExceeded :=
    Capacity.grow_of_lt (by omega)
  have hreserve : (reserveMore 1 : BitAct σ α Unit) (s, w) = .refused .capacityExceeded (s, w) := by
    rw [reserveMore, held_bind]
    cases hrequired : s.required 1 with
    | error e =>
        obtain rfl := required_eq_error hrequired
        rfl
    | ok n =>
        obtain rfl := required_eq_ok hrequired
        rw [ofExcept_bind_ok, if_neg hmore, hgrow]
        rfl
  rw [push, held_bind, if_pos hfull]
  exact bind_of_refused hreserve

end BitSequence

/-! ## One push onto a container -/

namespace Container

/-- The least room that a container takes when it grows. -/
def unit : Container α → Nat
  | elements _ => Capacity.least
  | bits _ => Word.size

/-- How many requests a container makes when it grows: one, unless what it asks for has no bytes. -/
def asks (E : Element σ α) : Container α → Nat
  | elements _ => if E.bytes = 0 then 0 else 1
  | bits _ => 1

/-- The containers are of one kind, and have the same handle. -/
inductive Akin : Container α → Container α → Prop
  | elements {s t : Sequence α} (h : s.handle = t.handle) : Akin (elements s) (elements t)
  | bits {s t : BitSequence} (h : s.handle = t.handle) : Akin (bits s) (bits t)

section Akin

variable {c d e : Container α}

theorem Akin.refl (c : Container α) : c.Akin c := by
  cases c with
  | elements s => exact .elements rfl
  | bits s => exact .bits rfl

/-- Being of one kind is transitive. -/
theorem Akin.trans (h : c.Akin d) (h' : d.Akin e) : c.Akin e := by
  cases h with
  | elements h =>
      cases h' with
      | elements h' => exact .elements (h.trans h')
  | bits h =>
      cases h' with
      | bits h' => exact .bits (h.trans h')

/-- Containers of one kind grow by the same unit. -/
theorem Akin.unit_eq (h : c.Akin d) : c.unit = d.unit := by
  cases h <;> rfl

/-- Containers of one kind ask for the same number of bytes. -/
theorem Akin.asks_eq (h : c.Akin d) : c.asks E = d.asks E := by
  cases h <;> rfl

/-- Containers of one kind have the same limit. -/
theorem Akin.maxSize_eq (h : c.Akin d) : c.maxSize E = d.maxSize E := by
  cases h with
  | elements h => exact congrArg (Handle.maxSize · E.bytes) h
  | bits h => exact BitSequence.maxSize_of_handle h

/-- Growing begins with at least one slot. -/
theorem unit_pos (c : Container α) : 0 < c.unit := by
  cases c with
  | elements s => exact Nat.succ_pos 3
  | bits s => exact Nat.succ_pos 63

end Akin

/-- One item comes into a container, and `requests` is what the allocators are asked for: nothing where there is
room, and otherwise the next room by the growth policy. -/
structure Lengthens (E : Element σ α) (c d : Container α) (requests : List (Nat × Nat)) : Prop where
  akin : d.Akin c
  len_eq : d.len = c.len + 1
  stays : c.len < c.capacity → d.capacity = c.capacity ∧ requests = []
  grows : c.len = c.capacity →
    d.capacity = Capacity.next c.unit (c.maxSize E) c.capacity ∧ requests.length = c.asks E

/-- A sequence is lengthened by a push that widens it. -/
theorem lengthens_elements {s t : Sequence α} {w' : World σ α} (hmax : s.len < s.maxSize E)
    (hhandle : t.handle = s.handle) (hlen : t.len = s.len + 1)
    (h : (Sequence.storage E).Widens s w s.len (t, w')) :
    (elements s).Lengthens E (elements t) (w.requestsTo w') where
  akin := .elements hhandle
  len_eq := hlen
  stays := h.stays
  grows hfull := by
    obtain ⟨hcapacity, hrequests⟩ := h.grows hfull
    have hroom : 0 < t.capacity := by
      have hnext : t.capacity = min (s.maxSize E) (max Capacity.least (2 * s.capacity)) := hcapacity
      have hleast : Capacity.least = 4 := rfl
      omega
    have hasked : (w.requestsTo w').length = if E.bytes = 0 then 0 else 1 := by
      rw [hrequests]
      by_cases hnone : E.bytes = 0
      · have hbytes : E.bytes * t.capacity = 0 := Nat.mul_eq_zero.mpr (.inl hnone)
        exact (congrArg List.length (if_pos hbytes)).trans (if_pos hnone).symm
      · have hbytes : E.bytes * t.capacity ≠ 0 := Nat.mul_ne_zero hnone (Nat.ne_of_gt hroom)
        exact (congrArg List.length (if_neg hbytes)).trans (if_neg hnone).symm
    exact ⟨hcapacity, hasked⟩

/-- The next room of a bit sequence is a number of whole words. -/
theorem wordsFor_next {m n : Nat} (h : n < m) :
    Word.wordsFor (Capacity.next Capacity.least (m * Word.size) (n * Word.size)) * Word.size
      = Capacity.next Word.size (m * Word.size) (n * Word.size) := by
  unfold Word.wordsFor Capacity.next Capacity.least Word.size
  omega

theorem lengthens_bits {s t : BitSequence} {w' : World σ α} (hmax : s.len < s.maxSize)
    (hhandle : t.handle = s.handle) (hlen : t.len = s.len + 1)
    (h : BitSequence.storage.Widens s w s.len (t, w')) :
    (bits s).Lengthens E (bits t) (w.requestsTo w') where
  akin := .bits hhandle
  len_eq := hlen
  stays := h.stays
  grows hfull := by
    obtain ⟨hwords, hrequests⟩ := h.grows hfull
    have hfull : s.len = s.capacity := hfull
    have hless : s.words.size < s.maxWords := by
      have hmore : s.words.size * Word.size < s.maxWords * Word.size := hfull.symm.trans_lt hmax
      exact Nat.lt_of_mul_lt_mul_right hmore
    have hcapacity : t.capacity = Capacity.next Word.size s.maxSize s.capacity := by
      have hsize : t.words.size = Word.wordsFor (Capacity.next Capacity.least s.maxSize s.capacity) := hwords
      rw [BitSequence.capacity, hsize]
      exact wordsFor_next hless
    refine ⟨hcapacity, ?_⟩
    have hroom : 0 < t.words.size := by
      have hnext : t.words.size * Word.size = min s.maxSize (max Word.size (2 * s.capacity)) := hcapacity
      have hword : Word.size = 64 := rfl
      rw [hword] at hnext
      omega
    have hbytes : Word.shape.bytes * t.words.size ≠ 0 := Nat.mul_ne_zero (by decide) (Nat.ne_of_gt hroom)
    rw [hrequests]
    exact congrArg List.length (if_neg hbytes)

end Container

/-- The command pushes one item onto the container in register `a`. -/
inductive Command.Pushes (a : Nat) : Container α → Command σ α → Prop
  | element {s : Sequence α} (x : α) : Pushes a (.elements s) (.edit a (.push x))
  | bit {s : BitSequence} (value : Bool) : Pushes a (.bits s) (.editBits a (.push value))

/-- The same command pushes to any container of that kind. -/
theorem Command.Pushes.of_akin {a : Nat} {c d : Container α} {command : Command σ α}
    (h : command.Pushes a c) (hd : d.Akin c) : command.Pushes a d := by
  cases h with
  | element x =>
      cases hd with
      | elements => exact .element x
  | bit value =>
      cases hd with
      | bits => exact .bit value

namespace Workspace

variable {ws : Workspace σ α} {a : Nat} {c : Container α} {command : Command σ α}

/-- A push puts an item in, as long as the handle admits it and no allocator declines. -/
theorem run_lengthens (hshape : E.toShape.Lawful) (hw : Counted E ws) (hc : ws.container? a = some c)
    (hpush : command.Pushes a c) (hfits : c.capacity ≤ c.maxSize E) (hmax : c.len < c.maxSize E) :
    let result := ws.run E command
    ws.world.Declines result.2.world ∨ result.1 = .answer .nothing ∧
      ∃ d, result.2.container? a = some d ∧ c.Lengthens E d (ws.world.requestsTo result.2.world) := by
  cases hpush with
  | @element s x =>
      have hs := sequence?_of_elements hc
      have hpushed := Sequence.push_widened hshape ⟨(hw.elements hc).sound, hfits⟩ hmax x
      rw [run_edit hs]
      rcases hpushed.answered_unless with hdeclined | ⟨hanswer, hhandle, hlen, hwidens⟩
      · exact .inl hdeclined
      · exact .inr ⟨hanswer, _, (container?_put _ (lt_of_container? hc) a).trans (if_pos rfl),
          Container.lengthens_elements hmax hhandle hlen hwidens⟩
  | @bit s value =>
      have hs := bitSequence?_of_bits hc
      have hpushed := BitSequence.push_widened ⟨(hw.bits hc).sound, hfits⟩ hmax value
      rw [run_editBits hs]
      rcases hpushed.answered_unless with hdeclined | ⟨hanswer, hhandle, hlen, hwidens⟩
      · exact .inl hdeclined
      · exact .inr ⟨hanswer, _, (container?_put _ (lt_of_container? hc) a).trans (if_pos rfl),
          Container.lengthens_bits hmax hhandle hlen hwidens⟩

/-! ## Runs of pushes -/

/-- A container in a register has grown: the length that it had then, and what the allocators were asked for. -/
structure Growth where
  length : Nat
  requests : List (Nat × Nat)

/-- How the container in a register grew from one workspace to the next, if it did. -/
def growth? (a : Nat) (ws ws' : Workspace σ α) : Option Growth :=
  match ws.container? a, ws'.container? a with
  | some c, some d =>
    if c.capacity < d.capacity then some ⟨c.len, ws.world.requestsTo ws'.world⟩ else none
  | _, _ => none

/-- How the container in a register grew while commands were performed, one growth after the other. -/
def growths (E : Element σ α) (a : Nat) (ws : Workspace σ α) : List (Command σ α) → List Growth
  | [] => []
  | command :: rest =>
    (growth? a ws (ws.run E command).2).toList ++ growths E a (ws.run E command).2 rest

/-- Pushes put an item each into a container that grew at the `lengths` before.  It went on growing in the same way,
each growth made as many requests as the container asks, and nothing else was asked for. -/
structure Lengthened (E : Element σ α) (a : Nat) (ws : Workspace σ α) (pushes : List (Command σ α))
    (c : Container α) (lengths : List Nat) : Prop where
  answers : ∀ response ∈ (ws.runAll E pushes).1, response = .answer .nothing
  grown : ∃ d, (ws.runAll E pushes).2.container? a = some d ∧ d.Akin c ∧ d.len = c.len + pushes.length ∧
    Capacity.Grown c.unit (c.maxSize E) d.len d.capacity
      (lengths ++ (growths E a ws pushes).map Growth.length)
  each : ∀ g ∈ growths E a ws pushes, g.requests.length = c.asks E
  requests_eq : ws.world.requestsTo (ws.runAll E pushes).2.world
    = (growths E a ws pushes).flatMap Growth.requests

/-- A command continues the trace. -/
theorem Counted.evolves (hw : Counted E ws) (command : Command σ α) :
    ws.world.Evolves (fun _ => True) (ws.run E command).2.world :=
  ((hw.perform_advances command).run fun _ _ _ => trivial).evolves

theorem Counted.runAll_evolves (hw : Counted E ws) (commands : List (Command σ α)) :
    ws.world.Evolves (fun _ => True) (ws.runAll E commands).2.world := by
  induction commands generalizing ws with
  | nil => exact .refl _
  | cons command rest ih => exact (hw.evolves command).trans (ih (hw.run command))

/-- **Step.**  One push goes on with the growth of the container: where this is full, it grows once more. -/
theorem growth?_of_lengthens {ws' : Workspace σ α} {d : Container α} {lengths : List Nat}
    (hc : ws.container? a = some c) (hd : ws'.container? a = some d)
    (h : c.Lengthens E d (ws.world.requestsTo ws'.world)) (hlen : c.len ≤ c.capacity)
    (hmax : c.len < c.maxSize E) (hgrown : Capacity.Grown c.unit (c.maxSize E) c.len c.capacity lengths) :
    Capacity.Grown c.unit (c.maxSize E) d.len d.capacity
        (lengths ++ (growth? a ws ws').toList.map Growth.length) ∧
      (∀ g ∈ (growth? a ws ws').toList, g.requests.length = c.asks E) ∧
      ws.world.requestsTo ws'.world = (growth? a ws ws').toList.flatMap Growth.requests := by
  have hgrowth : growth? a ws ws'
      = if c.capacity < d.capacity then some ⟨c.len, ws.world.requestsTo ws'.world⟩ else none := by
    rw [growth?, hc, hd]
  rw [hgrowth, h.len_eq]
  by_cases hroom : c.len < c.capacity
  · obtain ⟨hcapacity, hrequests⟩ := h.stays hroom
    rw [if_neg (by omega), hcapacity, hrequests]
    refine ⟨?_, nofun, rfl⟩
    rw [Option.toList_none, List.map_nil, List.append_nil]
    exact hgrown.stay hroom
  · have hfull : c.len = c.capacity := hlen.antisymm (Nat.le_of_not_lt hroom)
    obtain ⟨hcapacity, hrequests⟩ := h.grows hfull
    have hmore : c.capacity < d.capacity := by
      rw [hcapacity]
      exact Capacity.lt_next c.unit_pos (hfull ▸ hmax)
    rw [if_pos hmore, hcapacity]
    refine ⟨hgrown.grow c.unit_pos hfull (hfull ▸ hmax), ?_, ?_⟩
    · intro g hg
      obtain rfl := List.mem_singleton.mp hg
      exact hrequests
    · exact (List.flatMap_singleton _ _).symm

/-- One push goes before others. -/
theorem Lengthened.cons {d : Container α} {rest : List (Command σ α)} {lengths : List Nat}
    (hw : Counted E ws) (hanswer : (ws.run E command).1 = .answer .nothing) (hakin : d.Akin c)
    (hlen : d.len = c.len + 1)
    (heach : ∀ g ∈ (growth? a ws (ws.run E command).2).toList, g.requests.length = c.asks E)
    (hrequests : ws.world.requestsTo (ws.run E command).2.world
      = (growth? a ws (ws.run E command).2).toList.flatMap Growth.requests)
    (hrest : Lengthened E a (ws.run E command).2 rest d
      (lengths ++ (growth? a ws (ws.run E command).2).toList.map Growth.length)) :
    Lengthened E a ws (command :: rest) c lengths where
  answers response hresponse := by
    rcases List.mem_cons.mp hresponse with rfl | hresponse
    · exact hanswer
    · exact hrest.answers response hresponse
  grown := by
    obtain ⟨e, he, hakin', hlen', hgrown⟩ := hrest.grown
    have hsum : e.len = c.len + (command :: rest).length := by
      rw [hlen', hlen, List.length_cons, Nat.add_assoc, Nat.add_comm 1]
    rw [hakin.unit_eq, hakin.maxSize_eq, List.append_assoc, ← List.map_append] at hgrown
    exact ⟨e, he, hakin'.trans hakin, hsum, hgrown⟩
  each g hg := by
    rcases List.mem_append.mp hg with hg | hg
    · exact heach g hg
    · exact (hrest.each g hg).trans hakin.asks_eq
  requests_eq := by
    rw [growths, List.flatMap_append, ← hrequests, ← hrest.requests_eq]
    exact World.requestsTo_trans (hw.evolves command) ((hw.run command).runAll_evolves rest)

/-- **Run.**  Pushes put their items in one after the other, if the handle admits all of them and no allocator
declines. -/
theorem runAll_lengthens (hshape : E.toShape.Lawful) (pushes : List (Command σ α)) {lengths : List Nat}
    (hw : Counted E ws) (hc : ws.container? a = some c) (hpushes : ∀ command ∈ pushes, command.Pushes a c)
    (hgrown : Capacity.Grown c.unit (c.maxSize E) c.len c.capacity lengths)
    (hmax : c.len + pushes.length ≤ c.maxSize E)
    (hgranted : ¬ ws.world.Declines (ws.runAll E pushes).2.world) :
    Lengthened E a ws pushes c lengths := by
  -- The invariant is how the container has grown so far; each push adds the length at which it grew, if it did.
  induction pushes generalizing ws c lengths with
  | nil =>
      refine ⟨nofun, ⟨c, hc, .refl c, rfl, ?_⟩, nofun, ws.world.requestsTo_self⟩
      rw [growths, List.map_nil, List.append_nil]
      exact hgrown
  | cons command rest ih =>
      rw [List.length_cons] at hmax
      have hnext : c.len < c.maxSize E := by omega
      have hroom : c.len ≤ c.capacity := (hw.sound.valid a c hc).length_le
      have hpush := hpushes command List.mem_cons_self
      have hlater := (hw.run command).runAll_evolves rest
      obtain ⟨hanswer, d, hd, hlengthens⟩ :=
        (run_lengthens hshape hw hc hpush hgrown.capacity_le hnext).resolve_left
          fun hdeclined => hgranted (hdeclined.before hlater)
      have hakin := hlengthens.akin
      obtain ⟨hfirst, heach, hrequests⟩ := growth?_of_lengthens hc hd hlengthens hroom hnext hgrown
      rw [← hakin.unit_eq, ← hakin.maxSize_eq] at hfirst
      have hadmitted : d.len + rest.length ≤ d.maxSize E := by
        rw [hlengthens.len_eq, hakin.maxSize_eq]
        omega
      have hpushes' : ∀ next ∈ rest, next.Pushes a d :=
        fun next hnext => (hpushes next (List.mem_cons_of_mem _ hnext)).of_akin hakin
      have hgranted' : ¬ (ws.run E command).2.world.Declines (ws.runAll E (command :: rest)).2.world :=
        fun hdeclined => hgranted (hdeclined.after (hw.evolves command))
      have hrest := ih (hw.run command) hd hpushes' hfirst hadmitted hgranted'
      exact hrest.cons hw hanswer hakin hlengthens.len_eq heach hrequests

/-! ## Pushes from the beginning -/

/-- What pushes come to that put an item each into a container without room: it has doubled its least room, `unit`,
as often as it had to, as far as its handle admits, with as many requests each time as it `asks`.  The lengths at
which it did sum up to less than twice its length. -/
structure Amortized (E : Element σ α) (a : Nat) (ws : Workspace σ α) (pushes : List (Command σ α))
    (unit asks maxSize : Nat) : Prop where
  answers : ∀ response ∈ (ws.runAll E pushes).1, response = .answer .nothing
  room : ∃ c k, (ws.runAll E pushes).2.container? a = some c ∧ c.len = pushes.length ∧
    IsLeast {k | pushes.length ≤ unit * 2 ^ k} k ∧ c.capacity = min maxSize (unit * 2 ^ k) ∧
    (growths E a ws pushes).length = k + 1 ∧
    (ws.world.requestsTo (ws.runAll E pushes).2.world).length = (k + 1) * asks
  each : ∀ g ∈ growths E a ws pushes, g.requests.length = asks
  sum_lt : ((growths E a ws pushes).map Growth.length).sum < 2 * pushes.length

/-- What an empty container asks for, in all the pushes, is a geometric series. -/
theorem Lengthened.amortized {pushes : List (Command σ α)} (h : Lengthened E a ws pushes c [])
    (hnew : c.len = 0) (hpushes : 0 < pushes.length) :
    Amortized E a ws pushes c.unit (c.asks E) (c.maxSize E) := by
  obtain ⟨d, hd, -, hlen, hgrown⟩ := h.grown
  rw [hnew, Nat.zero_add] at hlen
  rw [hlen, List.nil_append] at hgrown
  obtain ⟨k, hdoubled⟩ := hgrown.exists_doubled hpushes
  have hcount : (growths E a ws pushes).length = k + 1 := by
    rw [← hdoubled.length_lengths, List.length_map]
  have hsame : (growths E a ws pushes).map (fun g => g.requests.length)
      = (growths E a ws pushes).map fun _ => c.asks E := List.map_congr_left h.each
  have htotal : (ws.world.requestsTo (ws.runAll E pushes).2.world).length = (k + 1) * c.asks E := by
    rw [h.requests_eq, List.length_flatMap, hsame, List.map_const', List.sum_replicate_nat, hcount]
  exact ⟨h.answers, ⟨d, k, hd, hlen, hdoubled.least, hdoubled.capacity_eq, hcount, htotal⟩, h.each,
    hdoubled.sum_lt hpushes⟩

/-- A push of `y` is refused for lack of capacity, and leaves everything as it is, but for `y`, which is dropped
again.  If this drop faults, the fault takes the place of the refusal. -/
structure Rejects (E : Element σ α) (a : Nat) (ws : Workspace σ α) (y : α) : Prop where
  calm : ∀ code, E.onDrop y ws.world.code = (.ok (), code) →
    ws.run E (.edit a (.push y)) = (.refused .capacityExceeded,
      { ws with world := ws.world.after [.received y, .dropped y false] code })
  faulting : ∀ message code, E.onDrop y ws.world.code = (.error message, code) →
    ws.run E (.edit a (.push y)) = (.faulted (.raised message),
      { ws with world := ws.world.after [.received y, .dropped y true] code })

/-- A full sequence at the limit of its handle takes no element. -/
theorem rejects_of_full {s : Sequence α} (hs : ws.sequence? a = some s) (hfull : s.len = s.capacity)
    (hmax : s.maxSize E = s.capacity) (y : α) : Rejects E a ws y := by
  have hreceived : (inWorld (World.receive y) : SequenceAct σ α Unit) (s, ws.world)
      = .done () (s, ws.world.after [.received y] ws.world.code) :=
    inWorld_of_done (World.record_eq (.received y) ws.world)
  have hpush : Sequence.push E y (s, ws.world) = (do
      inWorld (E.drop false y)
      refuse .capacityExceeded : SequenceAct σ α Unit) (s, ws.world.after [.received y] ws.world.code) := by
    rw [Sequence.push, bind_of_done hreceived, onRefusal, Sequence.pushBy_full hfull hmax]
    rfl
  constructor
  · intro code hdrop
    have hdrop : E.onDrop y (ws.world.after [.received y] ws.world.code).code = (.ok (), code) := hdrop
    have hdropped : E.drop false y (ws.world.after [.received y] ws.world.code)
        = .done () (ws.world.after [.received y, .dropped y false] code) := by
      rw [Element.drop_of_ok hdrop, World.after_after]
      rfl
    have hrefused : (Edit.push y).perform E (s, ws.world)
        = .refused .capacityExceeded (s, ws.world.after [.received y, .dropped y false] code) :=
      bind_of_refused (hpush.trans (bind_of_done (inWorld_of_done hdropped)))
    exact run_edit_still hs hrefused rfl
  · intro message code hdrop
    have hdrop : E.onDrop y (ws.world.after [.received y] ws.world.code).code = (.error message, code) := hdrop
    have hdropped : E.drop false y (ws.world.after [.received y] ws.world.code)
        = .faulted (.raised message) (ws.world.after [.received y, .dropped y true] code) := by
      rw [Element.drop_of_error hdrop, World.after_after]
      rfl
    have hfaulted : (Edit.push y).perform E (s, ws.world)
        = .faulted (.raised message) (s, ws.world.after [.received y, .dropped y true] code) :=
      bind_of_faulted (hpush.trans (bind_of_faulted (inWorld_of_faulted hdropped)))
    exact run_edit_still hs hfaulted rfl

/-- A push of a bit is refused for lack of capacity, and leaves everything as it is. -/
theorem run_editBits_full {t : BitSequence} (ht : ws.bitSequence? a = some t) (hfull : t.len = t.capacity)
    (hmax : t.maxSize = t.capacity) (value : Bool) :
    ws.run E (.editBits a (.push value)) = (.refused .capacityExceeded, ws) :=
  run_editBits_refused ht (bind_of_refused (BitSequence.push_full hfull hmax value))

/-- All pushes put their items into a container that is new. -/
theorem Counted.lengthened_of_new (hw : Counted E ws) (hshape : E.toShape.Lawful)
    (hc : ws.container? a = some c) (hnew : c.len = 0) (hnone : c.capacity = 0) {pushes : List (Command σ α)}
    (hpushes : ∀ command ∈ pushes, command.Pushes a c) (hmax : pushes.length ≤ c.maxSize E)
    (hgranted : ¬ ws.world.Declines (ws.runAll E pushes).2.world) : Lengthened E a ws pushes c [] := by
  have hfresh : Capacity.Grown c.unit (c.maxSize E) c.len c.capacity [] := by
    rw [hnew, hnone]
    exact .fresh
  have hadmitted : c.len + pushes.length ≤ c.maxSize E := by
    rw [hnew, Nat.zero_add]
    exact hmax
  exact runAll_lengthens hshape pushes hw hc hpushes hfresh hadmitted hgranted

/-- A container that has taken as many items as its handle admits is full, and has all the room that its handle
admits. -/
theorem Lengthened.full {pushes : List (Command σ α)} (h : Lengthened E a ws pushes c [])
    (hw : Counted E ws) (hnew : c.len = 0) (hfull : pushes.length = c.maxSize E) :
    ∃ d, (ws.runAll E pushes).2.container? a = some d ∧ d.Akin c ∧ d.len = d.capacity ∧
      d.maxSize E = d.capacity := by
  obtain ⟨d, hd, hakin, hlen, hgrown⟩ := h.grown
  have hroom : d.len ≤ d.capacity := ((hw.runAll pushes).sound.valid a d hd).length_le
  have hadmitted : d.capacity ≤ c.maxSize E := hgrown.capacity_le
  have hmax := hakin.maxSize_eq (E := E)
  exact ⟨d, hd, hakin, by omega, by omega⟩

/-- **Growth is amortized.**  In every program, items are pushed onto a container without room, no more than its
handle admits, and no allocator declines.  All pushes are done.  A sequence then has room for `4 * 2 ^ k` elements,
where `k` is the least number for which this is enough, as far as its handle admits, and it grew `k + 1` times, with
one request each unless elements have no bytes; the lengths at which it grew sum up to less than twice its length.
The same holds of bits, with `64 * 2 ^ k`.  Where as many were pushed as the handle admits, the next push is refused
for lack of capacity and changes nothing; but the element that it brings is dropped, and if this drop faults, the
fault takes the place of the refusal. -/
theorem pushes_amortized (E : Element σ α) (hshape : E.toShape.Lawful) (registers : Nat)
    (accounts : List Account) (code : σ) (before : List (Command σ α)) (a : Nat) (handle : Handle) :
    let ws := (runAll E (initial registers accounts code) before).2
    (∀ xs : List α, ws.sequence? a = some (.empty handle) → 1 ≤ xs.length →
      xs.length ≤ handle.maxSize E.bytes →
      let pushes : List (Command σ α) := xs.map fun x => .edit a (.push x)
      let pushed := (ws.runAll E pushes).2
      ¬ ws.world.Declines pushed.world →
        Amortized E a ws pushes 4 (if E.bytes = 0 then 0 else 1) (handle.maxSize E.bytes) ∧
          (xs.length = handle.maxSize E.bytes → ∀ y, Rejects E a pushed y)) ∧
    (∀ values : List Bool, ws.bitSequence? a = some (.empty handle) → 1 ≤ values.length →
      values.length ≤ (BitSequence.empty handle).maxSize →
      let pushes : List (Command σ α) := values.map fun value => .editBits a (.push value)
      let pushed := (ws.runAll E pushes).2
      ¬ ws.world.Declines pushed.world →
        Amortized E a ws pushes 64 1 (BitSequence.empty handle).maxSize ∧
          (values.length = (BitSequence.empty handle).maxSize →
            ∀ value, pushed.run E (.editBits a (.push value)) = (.refused .capacityExceeded, pushed))) := by
  intro ws
  have hw : Counted E ws := (counted_initial registers accounts code).runAll before
  constructor
  · intro xs hs hsome hmax pushes pushed hgranted
    have hcount : pushes.length = xs.length := List.length_map _
    have hpushes : ∀ command ∈ pushes, command.Pushes a (.elements (.empty handle)) := by
      intro command hcommand
      obtain ⟨x, _, rfl⟩ := List.mem_map.mp hcommand
      exact .element x
    have hlengthened : Lengthened E a ws pushes (.elements (.empty handle)) [] :=
      hw.lengthened_of_new hshape (container?_of_sequence? hs) rfl rfl hpushes (hcount.trans_le hmax) hgranted
    refine ⟨hlengthened.amortized rfl (hcount.symm ▸ hsome), fun hfull y => ?_⟩
    obtain ⟨d, hd, hakin, hlen, hcapacity⟩ := hlengthened.full hw rfl (hcount.trans hfull)
    cases hakin with
    | elements => exact rejects_of_full (sequence?_of_elements hd) hlen hcapacity y
  · intro values hs hsome hmax pushes pushed hgranted
    have hcount : pushes.length = values.length := List.length_map _
    have hpushes : ∀ command ∈ pushes, command.Pushes a (.bits (.empty handle)) := by
      intro command hcommand
      obtain ⟨value, _, rfl⟩ := List.mem_map.mp hcommand
      exact .bit value
    have hlengthened : Lengthened E a ws pushes (.bits (.empty handle)) [] :=
      hw.lengthened_of_new hshape (container?_of_bitSequence? hs) rfl rfl hpushes (hcount.trans_le hmax) hgranted
    refine ⟨hlengthened.amortized rfl (hcount.symm ▸ hsome), fun hfull value => ?_⟩
    obtain ⟨d, hd, hakin, hlen, hcapacity⟩ := hlengthened.full hw rfl (hcount.trans hfull)
    cases hakin with
    | bits => exact run_editBits_full (bitSequence?_of_bits hd) hlen hcapacity value

/-- Numbers and bits under a handle that admits six of the former, which is no power of two. -/
theorem pushes_amortized_six :
    let E : Element Unit Nat := .plain ⟨4, 4⟩ 0
    let handle : Handle := (Handle.of ⟨0, .numbered 0⟩).capped 24
    let before : List (Command Unit Nat) := [.create 0 .empty handle, .createBits 1 .empty handle]
    let ws := (runAll E (initial 2 [.unlimited] ()) before).2
    let pushes : List (Command Unit Nat) := [1, 2, 3, 4, 5, 6].map fun x => .edit 0 (.push x)
    let pushesOfBits : List (Command Unit Nat) := [true, false].map fun value => .editBits 1 (.push value)
    E.toShape.Lawful ∧
      (growths E 0 ws pushes).map (fun g => (g.length, g.requests)) = [(0, [(0, 16)]), (4, [(0, 24)])] ∧
      Amortized E 0 ws pushes 4 1 6 ∧ (∀ y, Rejects E 0 (ws.runAll E pushes).2 y) ∧
      Amortized E 1 ws pushesOfBits 64 1 192 := by
  intro E handle before ws pushes pushesOfBits
  have hshape : E.toShape.Lawful := ⟨by decide, by decide⟩
  have hsix : handle.maxSize E.bytes = 6 := by decide +kernel
  have hwords : (BitSequence.empty handle).maxSize = 192 := by decide +kernel
  have hgranted : ¬ ws.world.Declines (ws.runAll E pushes).2.world := World.not_declines (by decide +kernel)
  have hgrantedBits : ¬ ws.world.Declines (ws.runAll E pushesOfBits).2.world :=
    World.not_declines (by decide +kernel)
  obtain ⟨hamortized, hrejects⟩ := (pushes_amortized E hshape 2 [.unlimited] () before 0 handle).1
    [1, 2, 3, 4, 5, 6] rfl (by decide) (by decide) hgranted
  obtain ⟨hamortizedBits, -⟩ := (pushes_amortized E hshape 2 [.unlimited] () before 1 handle).2
    [true, false] rfl (by decide) (by decide) hgrantedBits
  rw [hsix] at hamortized hrejects
  rw [hwords] at hamortizedBits
  exact ⟨hshape, by decide +kernel, hamortized, hrejects rfl, hamortizedBits⟩

/-- One probe is pushed under a handle that admits one.  The next push brings a probe that faults when it is
dropped: it is not refused. -/
theorem full_push_faults :
    let E := Probe.element
    let handle : Handle := (Handle.of ⟨0, .numbered 0⟩).capped 8
    let ws := (runAll E (initial 1 [.unlimited] none) [.create 0 .empty handle]).2
    let result := ws.runAll E [.edit 0 (.push (.of 1))]
    let pushed := result.2.run E (.edit 0 (.push ⟨2, false, true⟩))
    handle.maxSize E.bytes = 1 ∧ result.1 = [.answer .nothing] ∧
      (result.2.sequence? 0).map (fun s => (s.len, s.capacity)) = some (1, 1) ∧
      pushed.1 = .faulted (.raised "probe d2") ∧ pushed.1 ≠ .refused .capacityExceeded :=
  ⟨rfl, rfl, rfl, rfl, nofun⟩

end Workspace

end Growable
