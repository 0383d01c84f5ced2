import Growable.Proofs.Capacity
import Growable.Proofs.Refusal

/-!
# Demands

An operation that makes room, or puts items in, knows before it begins what it demands of the storage: that
its indexes are valid, and room for a number of items (`Demand`).  Everything about its answer that has to do
with memory is decided by these two, by the capacity and by the maximum size (`Demand.Answered`):

* an index that is not valid, and a number of items beyond the maximum size, are rejected: nothing was asked
  of anyone, and nothing is changed (`Post.rejected`);
* if there is room, the region stays, and no allocator is involved (`Post.settled`);
* otherwise one request is made, before any code of elements or of closures runs.  If it is declined, the
  operation is rejected; if it is granted, nothing more is asked for (`Post.grown`).

An element that was given for the operation to put in is dropped when the operation is rejected.  This is the
only code that can run then, and if it faults, the fault takes the place of the error.
-/

namespace Growable

open Act

variable {σ α β δ S : Type}

/-! ## Blocks of a lawful shape -/

/-- Values lie behind one another without padding, and the blocks of memory can be aligned. -/
structure Shape.Lawful (shape : Shape) : Prop where
  align_dvd_bytes : shape.align ∣ shape.bytes
  align_dvd_space : shape.align ∣ Size.blockLimit + 1

/-- A region whose bytes can be counted can exist: its end lies on a multiple of the alignment. -/
theorem Shape.Lawful.bytes?_eq {shape : Shape} (h : shape.Lawful) {n : Nat}
    (hle : shape.bytes * n ≤ Size.blockLimit) : Region.bytes? shape n = some (shape.bytes * n) := by
  have hrest : shape.align ∣ Size.blockLimit + 1 - shape.bytes * n :=
    Nat.dvd_sub h.align_dvd_space (h.align_dvd_bytes.mul_right n)
  have hroom : shape.align ≤ Size.blockLimit + 1 - shape.bytes * n := Nat.le_of_dvd (by omega) hrest
  exact Region.bytes?_eq_some_iff.mpr ⟨rfl, by omega⟩

/-- The region without slots can exist. -/
theorem Shape.Lawful.fits {shape : Shape} (h : shape.Lawful) : shape.Fits :=
  Nat.le_of_dvd (Nat.succ_pos _) h.align_dvd_space

/-! ## What happened since -/

/-- Nobody was asked for anything yet: an element was taken over, or something was noted. -/
def Event.isPreliminary : Event α → Bool
  | received _ => true
  | noted _ => true
  | _ => false

namespace World

variable {w w₁ w₂ w₃ : World σ α} {given : Option α} {asked : List (Event α)} {place bytes : Nat}

/-- A call came to nothing after what was `asked`: only preliminaries came before that, and only the drop of
what was given came after it. -/
def Rejected (given : Option α) (asked : List (Event α)) (faulted : Bool) (w w' : World σ α) : Prop :=
  (faulted = true → given ≠ none) ∧ w'.issued = w.issued ∧
    ∃ before, (∀ e ∈ before, e.isPreliminary = true) ∧
      w'.trace.toList = w.trace.toList ++ before ++ asked ++ given.toList.map (.dropped · faulted)

/-- A call was granted the one block that it asked for, unless the block has no bytes: only preliminaries came
before the request, and no request came after it. -/
def Served (place bytes : Nat) (w w' : World σ α) : Prop :=
  ∃ before asked after, (∀ e ∈ before, e.isPreliminary = true) ∧
    (if bytes = 0 then asked = [] else ∃ block, asked = [.granted place block bytes]) ∧
    (∀ e ∈ after, e.request? = none) ∧
    w'.trace.toList = w.trace.toList ++ before ++ asked ++ after

/-- The world after an element was taken over. -/
def taking (x : α) (w : World σ α) : World σ α := { w with trace := w.trace.push (.received x) }

/-- Nothing happened, so nothing was asked for. -/
theorem rejected_refl (w : World σ α) : w.Rejected none [] false w :=
  ⟨by simp, rfl, [], by simp, by simp⟩

/-- A preliminary event in front of a rejection belongs to it. -/
theorem Rejected.prepend {e : Event α} (h : w₁.Rejected none asked false w₂)
    (he : e.isPreliminary = true) (htrace : w₁.trace = w.trace.push e) (hissued : w₁.issued = w.issued) :
    w.Rejected none asked false w₂ := by
  obtain ⟨-, hnone, before, hbefore, hw₂⟩ := h
  refine ⟨by simp, hnone.trans hissued, e :: before, by simpa [he] using hbefore, ?_⟩
  simpa [htrace] using hw₂

/-- An element is taken over before the call comes to nothing, and dropped after it. -/
theorem Rejected.give {x : α} {faulted : Bool} (h : (w.taking x).Rejected none asked false w₂)
    (hdropped : w₃.trace = w₂.trace.push (.dropped x faulted)) (hissued : w₃.issued = w₂.issued) :
    w.Rejected (some x) asked faulted w₃ := by
  obtain ⟨-, hnone, before, hbefore, hw₂⟩ := h
  refine ⟨fun _ => Option.some_ne_none x, hissued.trans hnone, .received x :: before, ?_, ?_⟩
  · simpa [Event.isPreliminary] using hbefore
  · simp [hdropped, hw₂, taking]

/-- A rejection without a request only takes an element over, notes, and drops the element. -/
theorem Rejected.evolves {faulted : Bool} (h : w.Rejected given [] faulted w₁) :
    w.Evolves (fun e => e.place? = none) w₁ := by
  obtain ⟨-, hissued, before, hbefore, hw₁⟩ := h
  have hevents : ∀ e ∈ before ++ given.toList.map (.dropped · faulted),
      e.place? = none ∧ e.grants = [] := by
    intro e he
    rcases List.mem_append.mp he with he | he
    · have hpreliminary := hbefore e he
      cases e <;> first | exact ⟨rfl, rfl⟩ | cases hpreliminary
    · obtain ⟨x, _, rfl⟩ := List.mem_map.mp he
      exact ⟨rfl, rfl⟩
  refine ⟨_, 0, by rw [hw₁, List.append_nil, List.append_assoc], fun e he => (hevents e he).1, hissued, ?_⟩
  rw [List.flatMap_eq_nil_iff.mpr fun e he => (hevents e he).2]
  rfl

/-- A fault is the last that happens. -/
theorem Rejected.back? {asked : List (Event α)} (h : w.Rejected given asked true w₁) :
    ∃ x, w₁.trace.back? = some (.dropped x true) := by
  obtain ⟨hsome, -, before, -, hw₁⟩ := h
  obtain ⟨x, rfl⟩ := Option.ne_none_iff_exists'.mp (hsome rfl)
  refine ⟨x, ?_⟩
  rw [← Array.getLast?_toList, hw₁]
  simp

/-- A preliminary event in front of a served request belongs to it. -/
theorem Served.prepend {e : Event α} (h : w₁.Served place bytes w₂) (he : e.isPreliminary = true)
    (htrace : w₁.trace = w.trace.push e) : w.Served place bytes w₂ := by
  obtain ⟨before, asked, after, hbefore, hasked, hafter, hw₂⟩ := h
  refine ⟨e :: before, asked, after, by simpa [he] using hbefore, hasked, hafter, ?_⟩
  simpa [htrace] using hw₂

/-- Whatever follows without a request. -/
theorem Served.append (h : w.Served place bytes w₁)
    (hlater : w₁.Evolves (fun e => e.request? = none) w₂) : w.Served place bytes w₂ := by
  obtain ⟨before, asked, after, hbefore, hasked, hafter, hw₁⟩ := h
  obtain ⟨es, _, htrace, hes, _⟩ := hlater
  refine ⟨before, asked, after ++ es, hbefore, hasked, ?_, ?_⟩
  · intro e he
    exact (List.mem_append.mp he).elim (hafter e) (hes e)
  · rw [htrace, hw₁, List.append_assoc]

end World

/-- Upkeep within a limit of zero bytes has no request. -/
theorem Event.request?_of_upkeep {place : Nat} (e : Event α) (h : e.Upkeep place 0) : e.request? = none := by
  rcases h with hchore | hdealing
  · exact request?_of_unasked (place?_of_chore hchore)
  · cases hdealing with
    | granted hpos hle => omega
    | declined hpos hle => omega
    | returned => rfl

/-! ## Storage and demands -/

/-- How the containers of one kind keep their items. -/
structure Storage (S : Type) where
  region : S → Region
  handle : S → Handle
  /-- The number of items that there is room for. -/
  capacity : S → Nat
  /-- The most items that the handle admits. -/
  maxSize : S → Nat
  /-- The slots that a number of items takes. -/
  slotsFor : Nat → Nat
  /-- The space that a slot takes in memory. -/
  slot : Shape
  /-- As long as the region stays, so does the room in it. -/
  capacity_eq : ∀ s t, region s = region t → capacity s = capacity t

/-- What an operation demands of the storage that it works on. -/
structure Demand where
  /-- Whether its indexes and spans are valid. -/
  bounds : Except SequenceError Unit
  /-- How many items there has to be room for. -/
  required : Nat
  /-- New room is made by the growth policy, and not for exactly as many items as are required. -/
  ahead : Bool

/-- The number of items that new room is made for. -/
def Demand.room (d : Demand) (capacity maxSize : Nat) : Except SequenceError Nat :=
  if d.ahead then Capacity.grow capacity d.required maxSize else .ok d.required

variable (K : Storage S)

/-- The claim that an operation comes to nothing after what was `asked`: it is refused with an error, or the
drop of what was given to it faults. -/
def Post.rejected (e : SequenceError) (asked : List (Event α)) (given : Option α) (s : S)
    (w : World σ α) : Post (S × World σ α) β :=
  ⟨fun _ _ => False, fun e' u => e' = e ∧ u.1 = s ∧ w.Rejected given asked false u.2,
    fun _ u => u.1 = s ∧ w.Rejected given asked true u.2⟩

/-- The claim that an operation is not refused, keeps the region, and has nothing to do with any
allocator. -/
def Post.settled (s : S) (w : World σ α) : Post (S × World σ α) β :=
  ⟨fun _ u => K.region u.1 = K.region s ∧ w.Evolves (fun e => e.place? = none) u.2, fun _ _ => False,
    fun _ u => K.region u.1 = K.region s ∧ w.Evolves (fun e => e.place? = none) u.2⟩

/-- The bytes that a number of slots takes, asked of the allocator of a container. -/
def Storage.declined (slots : Nat) (s : S) : List (Event α) :=
  [.declined (K.handle s).allocator.place (K.slot.bytes * slots)]

/-- The claim that an operation takes a new region of some slots, for which it asks once, or is rejected when
this is declined. -/
def Post.grown (slots : Nat) (given : Option α) (s : S) (w : World σ α) : Post (S × World σ α) β :=
  ⟨fun _ u => (K.region u.1).capacity = slots ∧
      w.Served (K.handle s).allocator.place (K.slot.bytes * slots) u.2,
    fun e u => 0 < K.slot.bytes * slots ∧
      (Post.rejected .allocationFailure (K.declined slots s) given s w : Post _ β).refused e u,
    fun f u => w.Served (K.handle s).allocator.place (K.slot.bytes * slots) u.2 ∨
      0 < K.slot.bytes * slots ∧
        (Post.rejected .allocationFailure (K.declined slots s) given s w : Post _ β).faulted f u⟩

/-- An operation on `s` is answered as its demand says. -/
structure Demand.Answered (d : Demand) (given : Option α) (s : S) (w : World σ α)
    (o : Outcome (S × World σ α) β) : Prop where
  invalid : ∀ e, d.bounds = .error e → o.Meets (.rejected e [] given s w)
  exceeding : d.bounds = .ok () → K.maxSize s < d.required →
    o.Meets (.rejected .capacityExceeded [] given s w)
  stays : d.bounds = .ok () → d.required ≤ K.capacity s → o.Meets (.settled K s w)
  grows : K.slot.Lawful → d.bounds = .ok () → K.capacity s < d.required → d.required ≤ K.maxSize s →
    ∃ n, d.room (K.capacity s) (K.maxSize s) = .ok n ∧ o.Meets (.grown K (K.slotsFor n) given s w)

/-- No handle admits more items than can be counted. -/
theorem Handle.maxSize_le_limit (h : Handle) (bytes : Nat) : h.maxSize bytes ≤ Size.limit := by
  have hmax := h.maxBytes_le
  have hlimits : Size.blockLimit ≤ Size.limit := by decide
  unfold maxSize
  split
  · exact Nat.le_refl _
  · exact (Nat.div_le_self _ _).trans (hmax.trans hlimits)

/-- Only where the indexes are valid, it matters how much is required. -/
theorem Demand.Answered.of_eq {K} {d d' : Demand} {given : Option α} {s : S} {w : World σ α}
    {o : Outcome (S × World σ α) β} (h : d.Answered K given s w o) (hbounds : d'.bounds = d.bounds)
    (hrequired : d.bounds = .ok () → d'.required = d.required) (hahead : d'.ahead = d.ahead) :
    d'.Answered K given s w o := by
  obtain ⟨bounds, required, ahead⟩ := d'
  obtain rfl : bounds = d.bounds := hbounds
  obtain rfl : ahead = d.ahead := hahead
  cases hvalid : d.bounds with
  | ok =>
      obtain rfl : required = d.required := hrequired hvalid
      exact hvalid ▸ h
  | error e => exact ⟨fun e' he' => h.invalid e' (hvalid.trans he'), nofun, nofun, nofun⟩

/-- An error is a rejection that asked for nothing. -/
theorem Post.rejected_refuse (e : SequenceError) (s : S) (w : World σ α) :
    ((refuse e : Act (S × World σ α) β) (s, w)).Meets (.rejected e [] none s w) :=
  ⟨rfl, rfl, w.rejected_refl⟩

/-! ## Acts that ask for nothing -/

/-- The act is not refused, and has nothing to do with any allocator. -/
def Act.Aside (act : Act (World σ α) β) : Prop :=
  ∀ w, (act w).Meets ⟨fun _ w' => w.Evolves (fun e => e.place? = none) w', fun _ _ => False,
    fun _ w' => w.Evolves (fun e => e.place? = none) w'⟩

/-- Wherever it begins, the act is not refused, keeps the region, and has nothing to do with any
allocator. -/
def Act.Settles (act : Act (S × World σ α) β) : Prop := ∀ s w, (act (s, w)).Meets (.settled K s w)

/-- The act is not refused, asks for no memory, and a value that it comes to satisfies `P`. -/
def Act.Quiet (P : β → Prop) (act : Act (World σ α) β) : Prop :=
  ∀ w, (act w).Meets ⟨fun b w' => P b ∧ w.Evolves (fun e => e.request? = none) w', fun _ _ => False,
    fun _ w' => w.Evolves (fun e => e.request? = none) w'⟩

/-- The claim that an act asks once for some bytes, before any code of elements or of closures runs. -/
def Post.asked (place bytes : Nat) (w : World σ α) (P : β → Prop) : Post (World σ α) β :=
  ⟨fun b w' => P b ∧ w.Served place bytes w',
    fun e w' => e = .allocationFailure ∧ 0 < bytes ∧ w.Rejected none [.declined place bytes] false w',
    fun _ w' => w.Served place bytes w'⟩

section Acts

variable {K} {s : S} {w : World σ α} {act : Act (S × World σ α) β} {next : β → Act (S × World σ α) δ}

/-- What does not refuse, stays in its region and asks for nothing settles a demand. -/
theorem Act.Firm.settles (hfirm : Firm act) (hkeeps : ∀ s w, (act (s, w)).Meets
    (.always fun u => K.region u.1 = K.region s ∧ w.Evolves (fun e => e.place? = none) u.2)) :
    Settles K act :=
  fun s w => ((hkeeps s w).and (hfirm (s, w))).imp (fun _ _ => And.left) (fun _ _ hu => hu.2)
    (fun _ _ => And.left)

/-- What does not refuse and asks for nothing stands aside of every demand. -/
theorem Act.Firm.aside {act : Act (World σ α) β} (hfirm : Firm act)
    (hkeeps : ∀ w : World σ α, Keeps (w.Evolves fun e => e.place? = none) act) : Aside act :=
  fun w => ((hkeeps w w (.refl w)).and (hfirm w)).imp (fun _ _ => And.left) (fun _ _ => And.right)
    (fun _ _ => And.left)

/-- What stands aside refuses nothing. -/
theorem Act.Aside.firm {act : Act (World σ α) β} (h : Aside act) : Firm act :=
  fun w => (h w).refusing fun _ _ => id

/-- What stands aside evolves the world in any way that allows for unplaced events. -/
theorem Act.Aside.keeps {act : Act (World σ α) β} (h : Aside act) {Q : Event α → Prop}
    (hQ : ∀ e : Event α, e.place? = none → Q e) (w₀ : World σ α) : Keeps (w₀.Evolves Q) act :=
  World.keeps_of_always fun w => (h w).imp (fun _ _ hw => hw.mono hQ) (fun _ _ => False.elim)
    (fun _ _ hw => hw.mono hQ)

/-- What is done in one region, after what was done in it. -/
theorem Post.settled_bind (hact : (act (s, w)).Meets (.settled K s w))
    (hnext : ∀ b, Settles K (next b)) : ((act >>= next) (s, w)).Meets (.settled K s w) := by
  apply bind_meets.mpr
  apply hact.imp
  · rintro b ⟨t, w₁⟩ ⟨hregion, hw₁⟩
    exact (hnext b t w₁).imp (fun _ _ hu => ⟨hu.1.trans hregion, hw₁.trans hu.2⟩)
      (fun _ _ => False.elim) (fun _ _ hu => ⟨hu.1.trans hregion, hw₁.trans hu.2⟩)
  · exact fun _ _ => False.elim
  · exact fun _ _ => id

/-- Settling acts compose. -/
theorem Act.Settles.bind (hact : Settles K act) (hnext : ∀ b, Settles K (next b)) :
    Settles K (act >>= next) :=
  fun s w => Post.settled_bind (hact s w) hnext

/-- Events without a place are no requests. -/
theorem World.Evolves.unrequested {w' : World σ α} (h : w.Evolves (fun e => e.place? = none) w') :
    w.Evolves (fun e => e.request? = none) w' :=
  h.mono fun _ => Event.request?_of_unasked

/-- What is done in a new region, after it was asked for. -/
theorem Post.grown_bind {slots : Nat} {given : Option α}
    (hact : (act (s, w)).Meets (.grown K slots given s w)) (hnext : ∀ b, Settles K (next b)) :
    ((act >>= next) (s, w)).Meets (.grown K slots given s w) := by
  apply bind_meets.mpr
  apply hact.imp
  · rintro b ⟨t, w₁⟩ ⟨hregion, hserved⟩
    exact (hnext b t w₁).imp (fun _ _ hu => ⟨hu.1 ▸ hregion, hserved.append hu.2.unrequested⟩)
      (fun _ _ => False.elim) (fun _ _ hu => .inl (hserved.append hu.2.unrequested))
  · exact fun _ _ => id
  · exact fun _ _ => id

/-- A rejection ends the whole act. -/
theorem Post.rejected_bind {e : SequenceError} {asked : List (Event α)} {given : Option α}
    (hact : (act (s, w)).Meets (.rejected e asked given s w)) :
    ((act >>= next) (s, w)).Meets (.rejected e asked given s w) :=
  bind_meets.mpr (hact.imp (fun _ _ => False.elim) (fun _ _ => id) (fun _ _ => id))

/-- All that is asked for is asked for at the beginning. -/
theorem Demand.Answered.bind {d : Demand} {given : Option α}
    (h : d.Answered K given s w (act (s, w))) (hnext : ∀ b, Settles K (next b)) :
    d.Answered K given s w ((act >>= next) (s, w)) where
  invalid e he := Post.rejected_bind (h.invalid e he)
  exceeding hbounds hmax := Post.rejected_bind (h.exceeding hbounds hmax)
  stays hbounds hle := Post.settled_bind (h.stays hbounds hle) hnext
  grows hslot hbounds hlt hmax := by
    obtain ⟨n, hn, hgrown⟩ := h.grows hslot hbounds hlt hmax
    exact ⟨n, hn, Post.grown_bind hgrown hnext⟩

/-- Returning a value settles any demand. -/
theorem Act.settles_pure (K : Storage S) (b : β) : Settles K (pure b : Act (S × World σ α) β) :=
  fun _ w => ⟨rfl, .refl w⟩

/-- What is answered in the end makes no difference. -/
theorem Demand.Answered.answer {d : Demand} {given : Option α} {answer : β → δ}
    (h : d.Answered K given s w (act (s, w))) :
    d.Answered K given s w ((do return answer (← act) : Act (S × World σ α) δ) (s, w)) :=
  h.bind fun b => settles_pure K (answer b)

/-! ## Requests -/

section Requests

variable {act : Act (World σ α) β} {next : β → Act (World σ α) δ} {P : β → Prop} {P' : δ → Prop}
  {place bytes : Nat} {allocator : Allocator}

/-- What does not refuse and makes no request is quiet. -/
theorem Act.Firm.quiet (hfirm : Firm act)
    (hyields : ∀ w₀ : World σ α, Yields (w₀.Evolves fun e => e.request? = none) P act) : Quiet P act :=
  fun w => ((hyields w w (.refl w)).and (hfirm w)).imp (fun _ _ => And.left) (fun _ _ => And.right)
    (fun _ _ => And.left)

/-- Quiet acts compose, each with what the one before it yields. -/
theorem Act.Quiet.bind (hact : Quiet P act) (hnext : ∀ b, P b → Quiet P' (next b)) :
    Quiet P' (act >>= next) := by
  intro w
  apply bind_meets.mpr
  apply (hact w).imp
  · rintro b w₁ ⟨hb, hw₁⟩
    exact (hnext b hb w₁).imp (fun _ _ hw₂ => ⟨hw₂.1, hw₁.trans hw₂.2⟩) (fun _ _ => False.elim)
      (fun _ _ hw₂ => hw₁.trans hw₂)
  · exact fun _ _ => id
  · exact fun _ _ => id

/-- What is done with the memory that was asked for. -/
theorem Post.asked_bind (hact : (act w).Meets (.asked place bytes w P))
    (hnext : ∀ b, P b → Quiet P' (next b)) : ((act >>= next) w).Meets (.asked place bytes w P') := by
  apply bind_meets.mpr
  apply hact.imp
  · rintro b w₁ ⟨hb, hserved⟩
    exact (hnext b hb w₁).imp (fun _ _ hw₂ => ⟨hw₂.1, hserved.append hw₂.2⟩) (fun _ _ => False.elim)
      (fun _ _ hw₂ => hserved.append hw₂)
  · exact fun _ _ => id
  · exact fun _ _ => id

/-- A note goes before a request. -/
theorem Post.asked_note (note : Note) (hact : ∀ w, (act w).Meets (.asked place bytes w P)) :
    ((do World.note note; act : Act (World σ α) β) w).Meets (.asked place bytes w P) := by
  have hnoted := hact { w with trace := w.trace.push (.noted note) }
  change (act { w with trace := w.trace.push (.noted note) }).Meets (.asked place bytes w P)
  exact hnoted.imp (fun _ _ hw => ⟨hw.1, hw.2.prepend rfl rfl⟩)
    (fun _ _ hw => ⟨hw.1, hw.2.1, hw.2.2.prepend rfl rfl rfl⟩)
    (fun _ _ hw => hw.prepend rfl rfl)

/-- A request of some bytes is answered by a grant or by a refusal of the allocator. -/
theorem World.request_asks (hpos : 0 < bytes) (w : World σ α) :
    (request allocator bytes w).Meets (.asked allocator.place bytes w fun _ => True) := by
  unfold request
  simp only [bind_meets, get_meets, ite_meets, modify_meets, pure_meets, refuse_meets]
  constructor
  · intro _
    refine ⟨trivial, [], [.granted allocator.place w.issued bytes], [], by simp, ?_, by simp, ?_⟩
    · rw [if_neg (Nat.ne_of_gt hpos)]
      exact ⟨w.issued, rfl⟩
    · simp [retally]
  · intro _
    exact ⟨rfl, hpos, by simp, rfl, [], by simp, by simp [retally]⟩

/-- A new region is asked for by its bytes, if it has any. -/
theorem Region.allocate_asks {shape : Shape} (hshape : shape.Lawful) {n : Nat}
    (hle : shape.bytes * n ≤ Size.blockLimit) (w : World σ α) : (allocate shape allocator n w).Meets
      (.asked allocator.place (shape.bytes * n) w fun r => r.capacity = n) := by
  unfold allocate
  rw [hshape.bytes?_eq hle]
  cases hbytes : shape.bytes * n with
  | zero => exact ⟨rfl, [], [], [], by simp, rfl, by simp, by simp⟩
  | succ m =>
      apply Post.asked_bind (World.request_asks m.succ_pos w)
      exact fun _ _ w₁ => ⟨rfl, .refl w₁⟩

/-- A staging area is asked for by the bytes of its slots. -/
theorem Staging.allocate_asks {E : Element σ α} (hshape : E.toShape.Lawful) {n : Nat}
    (hle : E.bytes * n ≤ Size.blockLimit) (w : World σ α) : (allocate E allocator n w).Meets
      (.asked allocator.place (E.bytes * n) w (Spans allocator n)) :=
  Post.asked_bind (Region.allocate_asks hshape hle w) fun _ hr w₁ => ⟨⟨rfl, hr⟩, .refl w₁⟩

end Requests

/-! ## New containers -/

/-- Nothing is asked for where there are no bytes. -/
theorem World.served_of_evolves {place : Nat} {w' : World σ α}
    (h : w.Evolves (fun e => e.request? = none) w') : w.Served place 0 w' := by
  obtain ⟨es, _, htrace, hes, _⟩ := h
  exact ⟨[], [], es, by simp, rfl, hes, by simpa using htrace⟩

/-- No call with nothing given faults on the way out. -/
theorem World.Rejected.not_faulted {asked : List (Event α)} {w' : World σ α}
    (h : w.Rejected none asked true w') : False :=
  h.1 rfl rfl

/-- Releasing the region without slots does nothing at all. -/
theorem Region.release_empty {shape : Shape} (hfits : shape.align ≤ Size.blockLimit + 1)
    (allocator : Allocator) (w : World σ α) :
    (empty.release shape allocator w).Meets (.returns fun _ w' => w' = w) := by
  have hbytes : bytes? shape empty.capacity = some 0 := by
    rw [bytes?_eq_some_iff]
    exact ⟨Nat.mul_zero _, by simpa using hfits⟩
  simp only [release, bind_meets, hbytes]
  rfl

/-- The claim that an act comes to nothing for lack of capacity, without having asked for anything. -/
def Post.exceeded (w : World σ α) : Post (World σ α) β :=
  ⟨fun _ _ => False, fun e w' => e = .capacityExceeded ∧ w.Rejected none [] false w', fun _ _ => False⟩

/-- Past the limit of a handle, nothing follows. -/
theorem Post.exceeded_bind {act : Act (World σ α) β} {next : β → Act (World σ α) δ}
    (h : (act w).Meets (.exceeded w)) : ((act >>= next) w).Meets (.exceeded w) :=
  bind_meets.mpr (h.imp (fun _ _ => False.elim) (fun _ _ => id) (fun _ _ => False.elim))

/-- A container that is made from an `empty` one is given room for `n` items, as far as the handle admits as
many; `made` reads it off what the act comes to. -/
structure Storage.Makes (K : Storage S) (empty : S) (n : Nat) (made : β → Option S) (w : World σ α)
    (o : Outcome (World σ α) β) : Prop where
  exceeding : K.maxSize empty < n → o.Meets (.exceeded w)
  asks : K.slot.Lawful → n ≤ K.maxSize empty →
    o.Meets (.asked (K.handle empty).allocator.place (K.slot.bytes * K.slotsFor n) w
      fun b => ∃ s, made b = some s ∧ (K.region s).capacity = K.slotsFor n)

/-- What is answered in the end makes no difference. -/
theorem Storage.Makes.answer {empty : S} {n : Nat} {made : β → Option S} {made' : δ → Option S}
    {act : Act (World σ α) β} {answer : β → δ} (h : K.Makes empty n made w (act w))
    (hmade : ∀ b, made' (answer b) = made b) :
    K.Makes empty n made' w ((do return answer (← act) : Act (World σ α) δ) w) where
  exceeding hmax := Post.exceeded_bind (h.exceeding hmax)
  asks hslot hmax := Post.asked_bind (h.asks hslot hmax) fun b hb w =>
    ⟨hb.imp fun _ hs => ⟨(hmade b).trans hs.1, hs.2⟩, .refl w⟩

/-- Work on a new container, which is discarded unless the work is done. -/
theorem Demand.Answered.owning {empty : S} {discard : Bool → S → Act (World σ α) Unit} {n : Nat}
    (hact : Demand.Answered K ⟨.ok (), n, false⟩ none empty w (act (empty, w)))
    (hgone : ∀ w, (discard false empty w).Meets (.returns fun _ w' => w' = w))
    (hdiscard : ∀ s w, (discard true s w).Meets (.always (w.Evolves fun e => e.request? = none)))
    (hnone : (K.region empty).capacity = K.slotsFor 0 ∧ K.capacity empty = 0)
    (hbytes : K.slot.bytes * K.slotsFor 0 = 0) :
    K.Makes empty n (fun r : S × β => some r.1) w (owning empty discard act w) := by
  constructor
  · intro hmax
    apply owning_meets.mpr
    apply (hact.exceeding rfl hmax).imp
    · exact fun _ _ => False.elim
    · rintro e ⟨s, w₁⟩ ⟨he, hsame, hw₁⟩
      obtain rfl : s = empty := hsame
      exact (hgone w₁).of_returns fun _ _ hw₂ => ⟨he, hw₂ ▸ hw₁⟩
    · exact fun _ _ hu => hu.2.not_faulted.elim
  · intro hslot hmax
    apply owning_meets.mpr
    rcases Nat.eq_zero_or_pos n with rfl | hpos
    · rw [hbytes]
      apply (hact.stays rfl (Nat.zero_le _)).imp
      · exact fun _ _ hu => ⟨⟨_, rfl, (congrArg Region.capacity hu.1).trans hnone.1⟩,
          World.served_of_evolves hu.2.unrequested⟩
      · exact fun _ _ => False.elim
      · rintro _ ⟨s, w₁⟩ ⟨_, hw₁⟩
        exact (hdiscard s w₁).always_imp fun _ hw₂ =>
          World.served_of_evolves (hw₁.unrequested.trans hw₂)
    · obtain ⟨m, hm, hgrown⟩ := hact.grows hslot rfl (hnone.2.trans_lt hpos) hmax
      cases hm
      apply hgrown.imp
      · exact fun _ _ hu => ⟨⟨_, rfl, hu.1⟩, hu.2⟩
      · rintro e ⟨s, w₁⟩ ⟨hpos, he, hsame, hw₁⟩
        obtain rfl : s = empty := hsame
        exact (hgone w₁).of_returns fun _ _ hw₂ => ⟨he, hpos, hw₂ ▸ hw₁⟩
      · rintro _ ⟨s, w₁⟩ (hserved | ⟨_, _, hw⟩)
        · exact (hdiscard s w₁).always_imp fun _ => hserved.append
        · exact hw.not_faulted.elim

/-! ## What is checked first -/

/-- Where a bound is not valid, nothing else matters. -/
theorem Demand.Answered.of_error {e : SequenceError} {required : Nat} {ahead : Bool} {given : Option α}
    {o : Outcome (S × World σ α) β} (h : o.Meets (.rejected e [] given s w)) :
    Demand.Answered K ⟨.error e, required, ahead⟩ given s w o := by
  refine ⟨fun e' he => ?_, nofun, nofun, nofun⟩
  cases he
  exact h

/-- What is looked up first has to be there. -/
theorem Demand.Answered.ofExcept_bind {γ : Type} {result : Except SequenceError γ}
    {next : γ → Act (S × World σ α) β} {bounds : Except SequenceError Unit} {required : Nat} {ahead : Bool}
    (hbounds : bounds = result.map fun _ => ())
    (hnext : ∀ b, result = .ok b →
      Demand.Answered K ⟨.ok (), required, ahead⟩ none s w (next b (s, w))) :
    Demand.Answered K ⟨bounds, required, ahead⟩ none s w ((ofExcept result >>= next) (s, w)) := by
  subst hbounds
  cases result with
  | ok b => exact hnext b rfl
  | error e => exact .of_error (Post.rejected_refuse e s w)

/-- The bounds are checked before anything else is done. -/
theorem Demand.Answered.checked {bounds : Except SequenceError Unit} {required : Nat} {ahead : Bool}
    (hact : bounds = .ok () → Demand.Answered K ⟨.ok (), required, ahead⟩ none s w (act (s, w))) :
    Demand.Answered K ⟨bounds, required, ahead⟩ none s w
      ((do ofExcept bounds; act : Act (S × World σ α) β) (s, w)) :=
  ofExcept_bind (by cases bounds <;> rfl) fun _ => hact

/-- What is done within the room that there is. -/
theorem Demand.answered_of_settled {required : Nat} {ahead : Bool} (hfits : K.capacity s ≤ K.maxSize s)
    (hroom : required ≤ K.capacity s) {o : Outcome (S × World σ α) β} (ho : o.Meets (.settled K s w)) :
    Demand.Answered K ⟨.ok (), required, ahead⟩ none s w o :=
  ⟨nofun, fun _ hmax => absurd (hroom.trans hfits) (Nat.not_le.mpr hmax), fun _ _ => ho,
    fun _ _ hlt => absurd hroom (Nat.not_le.mpr hlt)⟩

/-! ## An element that was given -/

section Given

variable {act : Act (S × World σ α) Unit} {d : Demand} {x : α} {E : Element σ α}
  {asked : List (Event α)} {e : SequenceError}

/-- Taking an argument over has no place. -/
theorem World.evolves_taking (x : α) (w : World σ α) :
    w.Evolves (fun e => e.place? = none) (w.taking x) :=
  .push (n := 0) (.received x) rfl rfl rfl rfl

/-- What comes of a rejection, once what was given is dropped. -/
theorem Post.rejected_drop {t : S × World σ α} (ht : t.1 = s)
    (hrejected : (w.taking x).Rejected none asked false t.2) :
    (inWorld (E.drop false x) t).Meets
      ⟨fun _ u => u.1 = s ∧ w.Rejected (some x) asked false u.2, fun _ _ => False,
        fun _ u => u.1 = s ∧ w.Rejected (some x) asked true u.2⟩ := by
  obtain ⟨t, w₁⟩ := t
  apply inWorld_meets.mpr
  apply (E.drop_pushes false x w₁).imp
  · exact fun _ _ hw => ⟨ht, hrejected.give hw.1 hw.2⟩
  · exact fun _ _ => id
  · exact fun _ _ hw => ⟨ht, hrejected.give hw.2.1 hw.2.2⟩

/-- A served request may begin with taking an argument over. -/
theorem World.Served.taken {place bytes : Nat} {w' : World σ α}
    (h : (w.taking x).Served place bytes w') : w.Served place bytes w' :=
  h.prepend rfl rfl

/-- A drop leaves the storage alone. -/
theorem settles_drop (K : Storage S) (unwinding : Bool) (x : α) : Settles K (inWorld (E.drop unwinding x)) := by
  intro s w
  apply inWorld_meets.mpr
  apply (E.drop_pushes unwinding x w).imp
  · exact fun _ w' hw => ⟨rfl, .push (n := 0) (.dropped x false) rfl hw.1 hw.2 rfl⟩
  · exact fun _ _ => id
  · exact fun _ w' hw => ⟨rfl, .push (n := 0) (.dropped x true) rfl hw.2.1 hw.2.2 rfl⟩

variable (h : ∀ w, d.Answered K none s w (act (s, w)))

include h

/-- The element is given up with the operation. -/
theorem Demand.Answered.onRefusal : d.Answered K (some x) s w
    ((do inWorld (World.receive x); act.onRefusal (inWorld (E.drop false x)) : Act _ Unit) (s, w)) := by
  change d.Answered K (some x) s w (act.onRefusal (inWorld (E.drop false x)) (s, w.taking x))
  have hanswered := h (w.taking x)
  have hrejected : ∀ e, (act (s, w.taking x)).Meets (.rejected e [] none s (w.taking x)) →
      (act.onRefusal (inWorld (E.drop false x)) (s, w.taking x)).Meets
        (.rejected e [] (some x) s w) := by
    intro e hact
    apply onRefusal_meets.mpr
    apply hact.imp (fun _ _ => False.elim) _ (fun _ _ hu => hu.2.not_faulted.elim)
    rintro _ u ⟨rfl, hsame, hw⟩
    exact (Post.rejected_drop hsame hw).imp (fun _ _ hu => ⟨rfl, hu⟩) (fun _ _ => False.elim)
      (fun _ _ => id)
  constructor
  · exact fun e he => hrejected e (hanswered.invalid e he)
  · exact fun hbounds hmax => hrejected _ (hanswered.exceeding hbounds hmax)
  · intro hbounds hle
    apply onRefusal_meets.mpr
    have htaken := World.evolves_taking x w
    exact (hanswered.stays hbounds hle).imp (fun _ _ hu => ⟨hu.1, htaken.trans hu.2⟩)
      (fun _ _ => False.elim) (fun _ _ hu => ⟨hu.1, htaken.trans hu.2⟩)
  · intro hslot hbounds hlt hmax
    obtain ⟨n, hn, hgrown⟩ := hanswered.grows hslot hbounds hlt hmax
    refine ⟨n, hn, onRefusal_meets.mpr ?_⟩
    apply hgrown.imp
    · exact fun _ _ hu => ⟨hu.1, hu.2.taken⟩
    · rintro _ u ⟨hpos, rfl, hsame, hw⟩
      exact (Post.rejected_drop hsame hw).imp (fun _ _ hu => ⟨hpos, rfl, hu⟩) (fun _ _ => False.elim)
        (fun _ _ hu => .inr ⟨hpos, hu⟩)
    · rintro _ u (hserved | ⟨_, _, hw⟩)
      · exact .inl hserved.taken
      · exact hw.not_faulted.elim

/-- The element is dropped last, however the operation ends. -/
theorem Demand.Answered.ensuring : d.Answered K (some x) s w
    ((do inWorld (World.receive x); act.ensuring fun unwinding => inWorld (E.drop unwinding x) :
      Act _ Unit) (s, w)) := by
  change d.Answered K (some x) s w
    (act.ensuring (fun unwinding => inWorld (E.drop unwinding x)) (s, w.taking x))
  have hanswered := h (w.taking x)
  have hrejected : ∀ e, (act (s, w.taking x)).Meets (.rejected e [] none s (w.taking x)) →
      (act.ensuring (fun unwinding => inWorld (E.drop unwinding x)) (s, w.taking x)).Meets
        (.rejected e [] (some x) s w) := by
    intro e hact
    apply ensuring_meets.mpr
    apply hact.imp (fun _ _ => False.elim) _ (fun _ _ hu => hu.2.not_faulted.elim)
    rintro _ u ⟨rfl, hsame, hw⟩
    exact (Post.rejected_drop hsame hw).imp (fun _ _ hu => ⟨rfl, hu⟩) (fun _ _ => False.elim)
      (fun _ _ => id)
  constructor
  · exact fun e he => hrejected e (hanswered.invalid e he)
  · exact fun hbounds hmax => hrejected _ (hanswered.exceeding hbounds hmax)
  · intro hbounds hle
    have htaken := World.evolves_taking x w
    have hdropped : ∀ unwinding (u : S × World σ α),
        K.region u.1 = K.region s ∧ (w.taking x).Evolves (fun e => e.place? = none) u.2 →
        (inWorld (E.drop unwinding x) u).Meets (.settled K s w) := by
      rintro unwinding ⟨t, w₁⟩ ⟨hregion, hw₁⟩
      exact (settles_drop K unwinding x t w₁).imp
        (fun _ _ hu => ⟨hu.1.trans hregion, htaken.trans (hw₁.trans hu.2)⟩) (fun _ _ => False.elim)
        (fun _ _ hu => ⟨hu.1.trans hregion, htaken.trans (hw₁.trans hu.2)⟩)
    apply ensuring_meets.mpr
    apply (hanswered.stays hbounds hle).imp
    · exact fun _ u hu => hdropped false u hu
    · exact fun _ _ => False.elim
    · exact fun _ u hu => (hdropped true u hu).imp (fun _ _ => id) (fun _ _ => False.elim) (fun _ _ => id)
  · intro hslot hbounds hlt hmax
    obtain ⟨n, hn, hgrown⟩ := hanswered.grows hslot hbounds hlt hmax
    refine ⟨n, hn, ensuring_meets.mpr ?_⟩
    apply hgrown.imp
    · rintro _ ⟨t, w₁⟩ ⟨hregion, hserved⟩
      exact (settles_drop K false x t w₁).imp
        (fun _ _ hu => ⟨hu.1 ▸ hregion, (hserved.append hu.2.unrequested).taken⟩) (fun _ _ => False.elim)
        (fun _ _ hu => .inl (hserved.append hu.2.unrequested).taken)
    · rintro _ u ⟨hpos, rfl, hsame, hw⟩
      exact (Post.rejected_drop hsame hw).imp (fun _ _ hu => ⟨hpos, rfl, hu⟩) (fun _ _ => False.elim)
        (fun _ _ hu => .inr ⟨hpos, hu⟩)
    · rintro _ ⟨t, w₁⟩ (hserved | ⟨_, _, hw⟩)
      · have hdropped : (inWorld (E.drop true x) (t, w₁)).Meets (.always fun u =>
            w.Served (K.handle s).allocator.place (K.slot.bytes * K.slotsFor n) u.2) :=
          (settles_drop K true x t w₁).imp (fun _ _ hu => (hserved.append hu.2.unrequested).taken)
            (fun _ _ => False.elim) (fun _ _ hu => (hserved.append hu.2.unrequested).taken)
        exact hdropped.always_imp fun _ => Or.inl
      · exact hw.not_faulted.elim

end Given

end Acts

end Growable
