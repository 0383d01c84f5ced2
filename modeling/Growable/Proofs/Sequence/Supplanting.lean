import Growable.Program.Command
import Growable.Proofs.Program.Responses
import Growable.Proofs.Sequence.Evolution
import Growable.Proofs.Sequence.Renewal

/-!
# Assignments from an iterator

An iterator is asked for one element after the other, and each takes the place of an old one, which is
dropped, as far as these reach; further ones are pushed.  `Sequence.FeedEnds` lists the ways in which this
can end, with the contents that each of them leaves, the results of asking the iterator, and the response:
the iterator ends or faults, the drop of an old element faults, or a push is refused.  Whichever it is, the
iterator is not asked again.  `assignFeed_ends` says that there is no other way.
-/

namespace Growable

open Act World

variable {σ α : Type}

/-- An iterator is asked with the event. -/
def Event.isAsk : Event α → Bool
  | yielded => true
  | ended => true
  | feedFaulted => true
  | _ => false

/-! ## What an iterator was asked -/

namespace World

variable {w w₁ w₂ : World σ α} {asks asks' es : List (Event α)} {e : Event α} {code : σ}

/-- The iterators were asked since, with the results `asks`, in order. -/
def Asks (w : World σ α) (asks : List (Event α)) (w' : World σ α) : Prop :=
  ∃ es, w.Emits es w' ∧ es.filter Event.isAsk = asks

theorem Asks.refl (w : World σ α) : w.Asks [] w := ⟨[], .refl w, rfl⟩

/-- The questions of two stretches follow one another. -/
theorem Asks.trans (h : w.Asks asks w₁) (h' : w₁.Asks asks' w₂) : w.Asks (asks ++ asks') w₂ := by
  obtain ⟨es, hes, rfl⟩ := h
  obtain ⟨es', hes', rfl⟩ := h'
  exact ⟨es ++ es', hes.trans hes', List.filter_append _ _⟩

/-- What asks no iterator does not count. -/
theorem Asks.silent (h : w.Asks asks w₁) (hemits : w₁.Emits es w₂) (hes : ∀ e ∈ es, e.isAsk = false) :
    w.Asks asks w₂ := by
  have hnone : es.filter Event.isAsk = [] :=
    List.filter_eq_nil_iff.mpr fun e he => Bool.eq_false_iff.mp (hes e he)
  have htrans := h.trans ⟨es, hemits, hnone⟩
  rwa [List.append_nil] at htrans

/-- Events that ask nothing may follow. -/
theorem Asks.evolve (h : w.Asks asks w₁) (hevolves : w₁.Evolves (fun e => e.isAsk = false) w₂) :
    w.Asks asks w₂ := by
  obtain ⟨es, _, hemits, hes, _⟩ := hevolves
  exact h.silent hemits hes

/-- An iterator is asked once more. -/
theorem Asks.record (h : w.Asks asks w₁) (he : e.isAsk = true) :
    w.Asks (asks ++ [e]) (w₁.after [e] w₁.code) :=
  h.trans ⟨[e], (passes_after w₁ [e] w₁.code).emits, List.filter_cons_of_pos he⟩

end World

namespace Element

variable {E : Element σ α} {xs ys : List α} {x : α} {code : σ} {w : World σ α}

/-- Dropping asks no iterator. -/
theorem isAsk_of_mem_dropEvents {e : Event α} (he : e ∈ E.dropEvents xs code) : e.isAsk = false := by
  have hmem := List.mem_map_of_mem (f := Event.dropped?) he
  rw [dropped?_dropEvents] at hmem
  obtain ⟨y, _, hy⟩ := List.mem_map.mp hmem
  cases e <;> first | rfl | cases hy

/-- The code after two series of drops is that after the second, from that after the first. -/
theorem afterDrops_append : E.afterDrops (xs ++ ys) code = E.afterDrops ys (E.afterDrops xs code) := by
  induction xs generalizing code with
  | nil => rfl
  | cons x rest ih => exact ih

/-- If no drop faults, the drops go on. -/
theorem dropFault?_append (h : E.dropFault? xs code = none) :
    E.dropFault? (xs ++ ys) code = E.dropFault? ys (E.afterDrops xs code) := by
  induction xs generalizing code with
  | nil => rfl
  | cons x rest ih =>
      rw [List.cons_append, dropFault?, afterDrops]
      rw [dropFault?] at h
      rcases hx : E.onDrop x code with ⟨result, code'⟩
      rw [hx] at h
      cases result with
      | ok _ => exact ih h
      | error message => cases h

/-- The drop of one element, like that of several. -/
theorem drop_raising (x : α) (w : World σ α) : (E.drop false x w).Meets
    (.raising (E.dropFault? [x] w.code) (· = w.after (E.dropEvents [x] w.code) (E.afterDrops [x] w.code))) := by
  rcases hx : E.onDrop x w.code with ⟨result, code⟩
  cases result with
  | ok _ =>
      rw [drop_of_ok hx]
      simp only [dropFault?, dropEvents, afterDrops, hx]
      exact ⟨rfl, rfl⟩
  | error message =>
      rw [drop_of_error hx]
      simp only [dropFault?, dropEvents, afterDrops, hx]
      exact ⟨message, rfl, rfl, rfl⟩

end Element

/-- Drops ask nothing. -/
theorem World.Asks.drops {E : Element σ α} {xs : List α} {w w₁ : World σ α} {asks : List (Event α)}
    {code code' : σ} (h : w.Asks asks w₁) : w.Asks asks (w₁.after (E.dropEvents xs code) code') :=
  h.silent (passes_after w₁ _ _).emits fun _ => Element.isAsk_of_mem_dropEvents

namespace Sequence

variable {E : Element σ α} {s : Sequence α} {w w₀ : World σ α} {m : Multiset (Asset α)} {x old : α} {k : Nat}

/-- How the assignment from an iterator ends: the contents that are left, what the iterator was asked, and
the response.  The old contents are those of `s`, and `code` is the state of the element code before. -/
inductive FeedEnds (E : Element σ α) (s : Sequence α) (code : σ) (feed : Feed α) :
    List α → List (Event α) → Response α → Prop
  /-- The iterator ends after some elements, and the old ones that are left are dropped. -/
  | ended {vs : List α} (hfeed : feed = .ofList vs .finish)
      (hcalm : E.dropFault? (s.items.take vs.length) code = none) :
      FeedEnds E s code feed vs (List.replicate vs.length .yielded ++ [.ended])
        (.dropping .nothing
          (E.dropFault? (s.items.drop vs.length) (E.afterDrops (s.items.take vs.length) code)))
  /-- The iterator faults. -/
  | raised {vs : List α} {message : String} (hfeed : feed = .ofList vs (.raise message))
      (hcalm : E.dropFault? (s.items.take vs.length) code = none) :
      FeedEnds E s code feed (vs ++ s.items.drop vs.length)
        (List.replicate vs.length .yielded ++ [.feedFaulted]) (.faulted (.raised message))
  /-- The drop of an old element faults, the place of which was taken. -/
  | dropFaulted {vs : List α} {x old : α} {rest : Feed α} {message : String}
      (hfeed : feed = .ofList vs (.yield x rest))
      (hcalm : E.dropFault? (s.items.take vs.length) code = none) (hslot : s.items[vs.length]? = some old)
      (hdrop : E.dropFault? [old] (E.afterDrops (s.items.take vs.length) code) = some message) :
      FeedEnds E s code feed (vs ++ x :: s.items.drop (vs.length + 1))
        (List.replicate (vs.length + 1) .yielded) (.faulted (.raised message))
  /-- The push of a further element is refused, or it is refused and the drop of that element faults. -/
  | refused {vs : List α} {x : α} {rest : Feed α} {t : Sequence α} {w : World σ α} {response : Response α}
      (hfeed : feed = .ofList vs (.yield x rest)) (hcalm : E.dropFault? s.items code = none)
      (hlong : s.items.length ≤ vs.length) (hitems : t.items = vs) (hhandle : t.handle = s.handle)
      (hpush : .ofOutcome ((Edit.push x).perform E (t, w)) = response)
      (hrefused : response ≠ .answer .nothing) :
      FeedEnds E s code feed vs (List.replicate (vs.length + 1) .yielded) response

/-- An element takes the place of an old one, and that one is dropped. -/
theorem supplant_raising (hslot : s.items[k]? = some old) (x : α) :
    ((do inWorld (World.receive x); supplant E k x : SequenceAct σ α Unit) (s, w)).Meets
      (.raising (E.dropFault? [old] w.code) (· = ({ s with items := s.items.set k x },
        w.after (.received x :: E.dropEvents [old] w.code) (E.afterDrops [old] w.code)))) := by
  have hreceived : inWorld (World.receive x) (s, w) = .done () (s, w.after [.received x] w.code) :=
    inWorld_of_done (record_eq (.received x) w)
  have hdropped := raising_inWorld (s := { s with items := s.items.set k x })
    (E.drop_raising old (w.after [.received x] w.code))
  rw [World.after_after] at hdropped
  rw [bind_of_done hreceived, supplant, held_bind, hslot]
  exact hdropped.raising_imp fun _ hu => Prod.ext hu.1 hu.2

/-- An item assigned over an element keeps the sequence in custody. -/
theorem Sound.supplant (hs : Sound E m (s, w)) (hslot : s.items[k]? = some old) (x : α) :
    ((do inWorld (World.receive x); supplant E k x : SequenceAct σ α Unit) (s, w)).Meets
      (.whenDone fun _ u => Sound E m u) := by
  obtain ⟨hk, hget⟩ := List.getElem?_eq_some_iff.mp hslot
  have hsplit : s.items = s.items.take k ++ old :: s.items.drop (k + 1) := by
    rw [← hget, ← List.drop_eq_getElem_cons hk, List.take_append_drop]
  have hfront : (s.items.take k).length = k := List.length_take_of_le hk.le
  apply whenDone_inWorld (World.receive_meets x hs.owns)
  intro _ w₁ howns
  have hmet := supplant_meets (x := x) hs.valid hsplit howns
  rw [hfront] at hmet
  exact hmet.whenDone fun _ _ hu => hu.1

/-- The elements `vs` of an iterator stand in their places, and no drop of an old element faulted so far;
the events since `w₀` show that the iterator yielded so many. -/
structure Placed (E : Element σ α) (m : Multiset (Asset α)) (s₀ : Sequence α) (code : σ) (w₀ : World σ α)
    (vs : List α) (u : Sequence α × World σ α) : Prop where
  sound : Sound E m u
  handle_eq : u.1.handle = s₀.handle
  items_eq : u.1.items = vs ++ s₀.items.drop vs.length
  calm : E.dropFault? (s₀.items.take vs.length) code = none
  /-- Once no old element is left, the state of the element code does not matter any more. -/
  code_eq : vs.length < s₀.len → u.2.code = E.afterDrops (s₀.items.take vs.length) code
  asks : w₀.Asks (List.replicate vs.length .yielded) u.2

variable {s₀ : Sequence α} {code : σ} {vs : List α}

/-- Once the old elements are used up, the contents are the items. -/
theorem Placed.items_eq_of_le (h : Placed E m s₀ code w₀ vs (s, w)) (hlong : s₀.len ≤ vs.length) :
    s.items = vs := by
  rw [h.items_eq, List.drop_eq_nil_of_le hlong, List.append_nil]

/-- The iterator yields once more. -/
theorem Placed.yielded (h : Placed E m s₀ code w₀ vs (s, w)) :
    Sound E m (s, w.after [.yielded] w.code) ∧
      w₀.Asks (List.replicate (vs.length + 1) .yielded) (w.after [.yielded] w.code) := by
  have hrecorded := World.record_meets (e := .yielded) rfl rfl h.sound.owns
  rw [record_eq] at hrecorded
  refine ⟨⟨h.sound.valid, hrecorded⟩, ?_⟩
  rw [List.replicate_succ']
  exact h.asks.record rfl

/-- One more element of the iterator takes the place of an old one. -/
theorem Placed.supplant (h : Placed E m s₀ code w₀ vs (s, w)) (hleft : vs.length < s₀.len) (x : α)
    (rest : Feed α) :
    let w₁ := w.after [.yielded] w.code
    ((do inWorld (World.receive x); supplant E vs.length x : SequenceAct σ α Unit) (s, w₁)).Meets
      ⟨fun _ u => Placed E m s₀ code w₀ (vs ++ [x]) u, fun _ _ => False,
        fun f u => ∃ asks, w₀.Asks asks u.2 ∧
          FeedEnds E s₀ code (.ofList vs (.yield x rest)) u.1.items asks (.faulted f)⟩ := by
  intro w₁
  obtain ⟨hsound, hasks⟩ := h.yielded
  have hold : s₀.items[vs.length]? = some s₀.items[vs.length] := List.getElem?_eq_getElem hleft
  have hitems := h.items_eq
  rw [List.drop_eq_getElem_cons hleft] at hitems
  have hset : s.items.set vs.length x = vs ++ x :: s₀.items.drop (vs.length + 1) := set_slot hitems x
  have hexact := supplant_raising (E := E) (w := w₁) (getElem?_slot hitems) x
  have hcode : w₁.code = E.afterDrops (s₀.items.take vs.length) code := h.code_eq hleft
  rw [hset, hcode] at hexact
  have hsilent : ∀ e ∈ .received x :: E.dropEvents [s₀.items[vs.length]] w₁.code, e.isAsk = false :=
    List.forall_mem_cons.mpr ⟨rfl, fun _ => Element.isAsk_of_mem_dropEvents⟩
  rw [hcode] at hsilent
  have htake : s₀.items.take (vs.length + 1) = s₀.items.take vs.length ++ [s₀.items[vs.length]] :=
    List.take_succ_eq_append_getElem hleft
  apply (hexact.and (hsound.supplant (getElem?_slot hitems) x)).imp
  · intro _ u hu
    obtain ⟨⟨hnone, rfl⟩, hsound⟩ := hu
    have hlength : (vs ++ [x]).length = vs.length + 1 := List.length_append
    exact {
      sound := hsound
      handle_eq := h.handle_eq
      items_eq := by rw [hlength, List.append_assoc]; rfl
      calm := by rw [hlength, htake, Element.dropFault?_append h.calm, hnone]
      code_eq := by rw [hlength, htake, Element.afterDrops_append]; exact fun _ => rfl
      asks := by rw [hlength]; exact hasks.silent (passes_after _ _ _).emits hsilent }
  · exact fun _ _ hu => hu.1
  · intro f u hu
    obtain ⟨⟨message, hsome, rfl, rfl⟩, _⟩ := hu
    exact ⟨_, hasks.silent (passes_after _ _ _).emits hsilent, .dropFaulted rfl h.calm hold hsome⟩

/-- A push asks no iterator. -/
theorem asks_push (x : α) {asks : List (Event α)} (hasks : w₀.Asks asks w) :
    (push E x (s, w)).Meets (.always fun u => w₀.Asks asks u.2) := by
  have hquiet : ∀ e : Event α, e.Upkeep s.handle.allocator.place s.handle.maxBytes → e.isAsk = false := by
    intro e he
    rcases he with hchore | hdealing
    · cases hchore <;> rfl
    · cases hdealing <;> rfl
  have hkept := keeps_push (E := E) (P := fun _ => True) hquiet (Nat.le_refl _) (fun _ _ => trivial) x
    (s, w) ⟨⟨rfl, trivial⟩, .refl w⟩
  exact hkept.always_imp fun _ hu => hasks.evolve hu.2

/-- Where no old element is left, one more element of the iterator is pushed. -/
theorem Placed.push (h : Placed E m s₀ code w₀ vs (s, w)) (hfits : E.toShape.Fits)
    (hlong : s₀.len ≤ vs.length) (x : α) (rest : Feed α) :
    let w₁ := w.after [.yielded] w.code
    let ends (response : Response α) (u : Sequence α × World σ α) : Prop :=
      ∃ asks, w₀.Asks asks u.2 ∧
        FeedEnds E s₀ code (.ofList vs (.yield x rest)) u.1.items asks response
    (Sequence.push E x (s, w₁)).Meets
      ⟨fun _ u => Placed E m s₀ code w₀ (vs ++ [x]) u, fun e => ends (.refused e),
        fun f => ends (.faulted f)⟩ := by
  intro w₁ ends
  obtain ⟨hsound, hasks⟩ := h.yielded
  have hitems : s.items = vs := h.items_eq_of_le hlong
  have hall : s₀.items.take vs.length = s₀.items := List.take_of_length_le hlong
  have hcalm : E.dropFault? s₀.items code = none := hall ▸ h.calm
  have hmet := (push_meets x hsound).and (asks_push (E := E) (s := s) x hasks)
  -- The push itself is part of what is claimed of a refusal.
  have hends : ∀ {response : Response α} {u : Sequence α × World σ α}, u.1 = s →
      w₀.Asks (List.replicate (vs.length + 1) .yielded) u.2 →
      .ofOutcome ((Edit.push x).perform E (s, w₁)) = response → response ≠ .answer .nothing →
      ends response u := by
    intro response u hu hasked hpush hrefused
    refine ⟨_, hasked, ?_⟩
    rw [hu, hitems]
    exact .refused rfl hcalm hlong hitems h.handle_eq hpush hrefused
  cases hpush : Sequence.push E x (s, w₁) with
  | done _ u =>
      rw [hpush] at hmet
      obtain ⟨⟨hsound', hhandle, hitems'⟩, hasked⟩ := hmet
      have hlength : (vs ++ [x]).length = vs.length + 1 := List.length_append
      have hlong' : s₀.len ≤ vs.length + 1 := Nat.le_succ_of_le hlong
      exact {
        sound := hsound'
        handle_eq := hhandle.trans h.handle_eq
        items_eq := by
          rw [hitems', hitems, hlength, List.drop_eq_nil_of_le hlong', List.append_nil]
        calm := by rw [hlength, List.take_of_length_le hlong', hcalm]
        code_eq := fun hleft => absurd (hlength ▸ hleft) (Nat.not_lt.mpr hlong')
        asks := by rw [hlength]; exact hasked }
  | refused e u =>
      rw [hpush] at hmet
      obtain ⟨⟨_, _, hsame⟩, hasked⟩ := hmet
      exact hends hsame hasked (congrArg _ (bind_of_refused hpush)) nofun
  | faulted f u =>
      rw [hpush] at hmet
      obtain ⟨⟨_, _, hclaim⟩, hasked⟩ := hmet
      exact hends (hclaim hfits).2 hasked (congrArg _ (bind_of_faulted hpush)) nofun

/-- An iterator that yields one more element. -/
theorem ofList_yield (vs : List α) (x : α) (rest : Feed α) :
    Feed.ofList vs (.yield x rest) = .ofList (vs ++ [x]) rest := by
  rw [Feed.ofList, Feed.ofList, List.foldr_append]
  rfl

/-- The rest of an iterator, after the elements `vs` were put in their places. -/
theorem supplantFrom_ends (hfits : E.toShape.Fits) (feed : Feed α)
    (h : Placed E m s₀ code w₀ vs (s, w)) :
    (supplantFrom E s₀.len vs.length feed (s, w)).Meets (.responding fun response u =>
      ∃ asks, w₀.Asks asks u.2 ∧ FeedEnds E s₀ code (.ofList vs feed) u.1.items asks response) := by
  induction feed generalizing s w vs with
  | finish =>
      have hended := h.asks.record (e := .ended) rfl
      have hends : FeedEnds E s₀ code (.ofList vs .finish) vs
          (List.replicate vs.length .yielded ++ [.ended])
          (.dropping .nothing (E.dropFault? (s₀.items.drop vs.length)
            (E.afterDrops (s₀.items.take vs.length) code))) := .ended rfl h.calm
      rw [supplantFrom, bind_of_done (inWorld_of_done (record_eq .ended w))]
      by_cases hleft : vs.length < s₀.len
      · have hkept : s.items.take vs.length = vs := by rw [h.items_eq, List.take_left]
        have hsurplus : s.items.drop vs.length = s₀.items.drop vs.length := by
          rw [h.items_eq, List.drop_left]
        have hdropped := truncate_raising (E := E) (s := s) (w := w.after [.ended] w.code) vs.length
        rw [hsurplus, hkept] at hdropped
        rw [← h.code_eq hleft] at hends
        rw [if_pos hleft]
        apply Post.responding_of_raising hdropped
        intro u hu
        rw [hu, Response.ofDrops_eq]
        exact ⟨_, hended.drops, hends⟩
      · have hlong : s₀.len ≤ vs.length := Nat.le_of_not_lt hleft
        rw [List.drop_eq_nil_of_le hlong] at hends
        rw [if_neg hleft]
        exact ⟨_, hended, (h.items_eq_of_le hlong).symm ▸ hends⟩
  | raise message =>
      have hends : FeedEnds E s₀ code (.ofList vs (.raise message)) (vs ++ s₀.items.drop vs.length)
          (List.replicate vs.length .yielded ++ [.feedFaulted]) (.faulted (.raised message)) :=
        .raised rfl h.calm
      rw [← h.items_eq] at hends
      rw [supplantFrom, bind_of_done (inWorld_of_done (record_eq .feedFaulted w))]
      exact ⟨_, h.asks.record rfl, hends⟩
  | yield x rest ih =>
      have hnext : ∀ u, Placed E m s₀ code w₀ (vs ++ [x]) u →
          (supplantFrom E s₀.len (vs.length + 1) rest u).Meets (.responding fun response u =>
            ∃ asks, w₀.Asks asks u.2 ∧
              FeedEnds E s₀ code (.ofList vs (.yield x rest)) u.1.items asks response) := by
        intro u hu
        have hrest := ih hu
        rwa [List.length_append, ← ofList_yield] at hrest
      rw [supplantFrom, bind_of_done (inWorld_of_done (record_eq .yielded w))]
      by_cases hleft : vs.length < s₀.len
      · rw [if_pos hleft, ← bind_assoc]
        exact bind_meets.mpr ((h.supplant hleft x rest).imp (fun _ u => hnext u) (fun _ _ => False.elim)
          fun _ _ => id)
      · rw [if_neg hleft]
        exact bind_meets.mpr ((h.push hfits (Nat.le_of_not_lt hleft) x rest).imp (fun _ u => hnext u)
          (fun _ _ => id) fun _ _ => id)

/-- However an assignment from an iterator ends, it is in one of these ways. -/
theorem assignFeed_ends (hs : Sound E m (s, w)) (hfits : E.toShape.Fits) (feed : Feed α) :
    (assignFeed E feed (s, w)).Meets (.responding fun response u =>
      ∃ asks, w.Asks asks u.2 ∧ FeedEnds E s w.code feed u.1.items asks response) := by
  have hstart : Placed E m s w.code w [] (s, w) :=
    { sound := hs, handle_eq := rfl, items_eq := rfl, calm := rfl, code_eq := fun _ => rfl, asks := .refl w }
  rw [assignFeed, held_bind]
  exact supplantFrom_ends hfits feed hstart

end Sequence

end Growable
