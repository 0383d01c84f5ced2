import Growable.Proofs.Feed
import Growable.Proofs.Sequence.Demand

/-!
# Elements that come one by one

The operations on sequences that consume an iterator put its elements in one by one: behind the others, where
they are rotated into place in the end, or in the place of old ones as far as these reach.  The number of
elements that come decides what becomes of the operation (`insertFeed_governed`, `assignFeed_governed`).
-/

namespace Growable.Sequence

open Act

variable {σ α β : Type} {E : Element σ α} {s : Sequence α} {w : World σ α} {m : Multiset (Asset α)}

/-- A sound sequence, the handle of which admits the room that it has. -/
structure Fitting (E : Element σ α) (m : Multiset (Asset α)) (u : Sequence α × World σ α) : Prop where
  sound : Sound E m u
  fits : u.1.capacity ≤ u.1.maxSize E

/-- An event that moves no element leaves all as it is. -/
theorem Fitting.record {e : Event α} (hs : Fitting E m (s, w)) (hgains : e.gains = 0)
    (hlosses : e.losses = 0) : Fitting E m (s, { w with trace := w.trace.push e }) :=
  ⟨⟨hs.sound.valid, World.record_meets hgains hlosses hs.sound.owns⟩, hs.fits⟩

/-- An element that is pushed makes the sequence longer by one. -/
theorem Fitting.push (hs : Fitting E m (s, w)) (x : α) : (push E x (s, w)).Meets
    ⟨fun _ u => (Fitting E m u ∧ u.1.len = s.len + 1 ∧ u.1.maxSize E = s.maxSize E) ∧
      w.Evolves (fun _ => True) u.2, fun _ _ => True, fun _ _ => True⟩ := by
  have hkept := keeps_push (E := E) (P := (·.capacity ≤ s.maxSize E)) (Q := fun _ => True)
    (fun _ _ => trivial) s.handle.maxBytes_le (fun _ => id) x (s, w) ⟨⟨rfl, hs.fits⟩, .refl w⟩
  apply ((push_meets x hs.sound).and hkept).imp
  · rintro _ ⟨t, w'⟩ ⟨⟨ht, hhandle, hitems⟩, ⟨_, hroom⟩, hw'⟩
    have hmax : t.maxSize E = s.maxSize E := congrArg (Handle.maxSize · E.bytes) hhandle
    have hlen : t.len = s.len + 1 := by rw [len, hitems, List.length_append, List.length_singleton, len]
    exact ⟨⟨⟨ht, hroom.trans_eq hmax.symm⟩, hlen, hmax⟩, hw'⟩
  · exact fun _ _ _ => trivial
  · exact fun _ _ _ => trivial

/-- A push of an element demands one slot more, and the element is given up if it is refused. -/
theorem push_answered (hlen : s.len ≤ s.capacity) (hfits : s.capacity ≤ s.maxSize E) (x : α) :
    Demand.Answered (storage E) ⟨.ok (), s.len + 1, true⟩ (some x) s w (push E x (s, w)) :=
  .onRefusal fun _ => pushBy_answered hlen hfits (aside_pure x)

/-- A push is a way to append items one by one. -/
theorem appends_push (E : Element σ α) (m : Multiset (Asset α)) :
    (storage E).Appends len (Fitting E m) some (push E) where
  len_le _ hs := hs.sound.valid.len_le.trans hs.fits
  yielded _ _ hs := hs.record rfl rfl
  answered x _ _ hs := push_answered hs.sound.valid.len_le hs.fits x
  lengthens x _ _ hs := hs.push x

/-- To push a feed is to push its items one by one. -/
theorem pushFeed_eq_each (feed : Feed α) : pushFeed E feed = feed.each (push E) := by
  induction feed with
  | finish => rfl
  | raise message => rfl
  | yield x rest ih =>
      rw [pushFeed, ih]
      rfl

/-- Rotating the elements settles any demand. -/
theorem settles_rotate (position middle : Nat) :
    Settles (storage E) (rotate position middle : SequenceAct σ α Unit) :=
  fun _ _ => settled_of_keeps (firm_rotate position middle) (keeps_rotate position middle)

/-- Elements that are dropped again leave the room as it is. -/
theorem settles_interrupt (len : Nat) : Settles (storage E) (do
    let s ← held
    inWorld (World.note (.interrupted (s.len - len)))
    truncate E len : SequenceAct σ α Unit) := by
  have hchore : ∀ e : Event α, e.Chore → e.place? = none := Event.chore_of_unasked fun _ => id
  intro s w
  apply settled_of_keeps
  · exact firm_held.bind fun s => (firm_record _).inWorld.bind fun _ => firm_truncate len
  · apply keeps_held
    exact fun s _ => (keeps_inWorld (World.keeps_note hchore _)).bind fun _ => keeps_truncate hchore len

/-- An insertion from an iterator demands a position in bounds, then the room item by item. -/
theorem insertFeed_governed (hs : Fitting E m (s, w)) (position : Nat) (feed : Feed α) :
    Demand.Governs (storage E) ⟨checkPosition position s.len, s.len + feed.members.length, true⟩ none s w
      (insertFeed E position feed (s, w)) := by
  rw [insertFeed, held_bind]
  apply Demand.Governs.checked
  intro _
  apply Demand.Governs.bind _ fun _ => settles_rotate position s.len
  apply Demand.Governs.onRefusal _ (settles_interrupt s.len)
  rw [pushFeed_eq_each]
  exact (appends_push E m).governs feed hs

/-- An element that takes the place of an old one leaves the length and the room as they are. -/
theorem Fitting.supplant {k : Nat} (hs : Fitting E m (s, w)) (hk : k < s.len) (x : α) :
    ((do inWorld (World.receive x); supplant E k x : SequenceAct σ α Unit) (s, w)).Meets
      ⟨fun _ u => (Fitting E m u ∧ u.1.len = s.len ∧ u.1.maxSize E = s.maxSize E) ∧
        w.Evolves (fun e => e.place? = none) u.2, fun _ _ => True, fun _ _ => True⟩ := by
  have hchore : ∀ e : Event α, e.Chore → e.place? = none := Event.chore_of_unasked fun _ => id
  have hsplit : s.items = s.items.take k ++ s.items[k] :: s.items.drop (k + 1) := by
    rw [← List.drop_eq_getElem_cons hk, List.take_append_drop]
  have hfront : (s.items.take k).length = k := List.length_take_of_le hk.le
  simp only [bind_meets, inWorld_meets]
  apply ((World.receive_meets x hs.sound.owns).and (World.keeps_receive hchore x w (.refl w))).imp
  · rintro _ w₁ ⟨howns, hw₁⟩
    have hkept := keeps_supplant (E := E) (P := fun _ => True) hchore k x (s, w₁) ⟨⟨rfl, trivial⟩, hw₁⟩
    have hmet := supplant_meets (x := x) hs.sound.valid hsplit howns
    rw [hfront] at hmet
    apply (hmet.and hkept).imp
    · rintro _ ⟨t, w₂⟩ ⟨⟨ht, rfl⟩, _, hw₂⟩
      refine ⟨⟨⟨ht, hs.fits⟩, ?_, rfl⟩, hw₂⟩
      have hlength := congrArg List.length hsplit
      simp only [List.length_append, List.length_cons] at hlength
      simp only [len, List.length_append, List.length_cons]
      exact hlength.symm
    · exact fun _ _ _ => trivial
    · exact fun _ _ _ => trivial
  · exact fun _ _ _ => trivial
  · exact fun _ _ _ => trivial

/-- An assignment from an iterator demands room only for the items behind the elements. -/
theorem supplantFrom_governed {k length : Nat} (feed : Feed α) (hs : Fitting E m (s, w))
    (hlength : s.len = max length k) :
    Demand.Governs (storage E) ⟨.ok (), k + feed.members.length, true⟩ none s w
      (supplantFrom E length k feed (s, w)) := by
  have hchore : ∀ e : Event α, e.Chore → e.place? = none := Event.chore_of_unasked fun _ => id
  have hadmitted : ∀ {s w k}, Fitting E m (s, w) → s.len = max length k → k ≤ s.maxSize E :=
    fun hs hlength =>
      (le_max_right _ _).trans (hlength.symm.trans_le (hs.sound.valid.len_le.trans hs.fits))
  induction feed generalizing s w k with
  | finish =>
      apply Demand.Governs.record rfl
      apply Demand.governs_of_settled (hadmitted hs hlength)
      apply settled_of_keeps
      · exact (firm_truncate k).ite (firm_pure _)
      · exact Keeps.ite (fun _ => keeps_truncate hchore k) (fun _ => keeps_pure _)
  | raise message =>
      apply Demand.Governs.record rfl
      exact Demand.governs_of_settled (hadmitted hs hlength) ⟨rfl, .refl _⟩
  | yield x rest ih =>
      have hs₁ : Fitting E m (s, { w with trace := w.trace.push .yielded }) := hs.record rfl rfl
      have hnext : k + (Feed.yield x rest).members.length = k + 1 + rest.members.length := by
        rw [Feed.members, List.length_cons, Nat.add_assoc, Nat.add_comm 1]
      rw [hnext]
      apply Demand.Governs.record rfl
      by_cases hold : k < length
      · rw [if_pos hold]
        have hin : k < s.len := hold.trans_le ((le_max_left length k).trans hlength.ge)
        have hsettled : ((do inWorld (World.receive x); supplant E k x : SequenceAct σ α Unit)
            (s, { w with trace := w.trace.push .yielded })).Meets
            (.settled (storage E) s { w with trace := w.trace.push .yielded }) :=
          settled_of_keeps ((firm_record _).inWorld.bind fun _ => firm_supplant k x)
            ((keeps_inWorld (World.keeps_receive hchore x)).bind fun _ => keeps_supplant hchore k x)
        apply Demand.Governs.after hsettled
        apply (hs₁.supplant hin x).imp
        · rintro _ ⟨t, w₂⟩ ⟨⟨ht, hlen, hmax⟩, hw₂⟩
          have hlen : t.len = s.len := hlen
          exact ⟨hmax, hw₂, ih ht (by omega)⟩
        · exact fun _ _ => id
        · exact fun _ _ => id
      · rw [if_neg hold]
        have hfull : s.len = k := by omega
        have hpushed := push_answered (w := { w with trace := w.trace.push .yielded })
          hs₁.sound.valid.len_le hs₁.fits x
        rw [hfull] at hpushed
        apply hpushed.governs.step (Nat.le_add_right _ _)
        apply (hs₁.push x).imp
        · rintro _ ⟨t, w₂⟩ ⟨⟨ht, hlen, hmax⟩, hw₂⟩
          have hlen : t.len = s.len + 1 := hlen
          exact ⟨hmax, hw₂, ih ht (by omega)⟩
        · exact fun _ _ => id
        · exact fun _ _ => id

/-- What an iterator yields takes the place of the old elements. -/
theorem assignFeed_governed (hs : Fitting E m (s, w)) (feed : Feed α) :
    Demand.Governs (storage E) ⟨.ok (), feed.members.length, true⟩ none s w (assignFeed E feed (s, w)) := by
  rw [← Nat.zero_add feed.members.length]
  exact supplantFrom_governed feed hs (Nat.max_zero _).symm

end Growable.Sequence
