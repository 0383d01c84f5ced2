import Growable.Probe
import Growable.Proofs.BitSequence.InPlace
import Growable.Proofs.Program.Capacity
import Growable.Proofs.Program.Extension
import Growable.Proofs.Program.Responses
import Growable.Proofs.Sequence.Spans

/-!
# Spans in programs

A span is given by two bounds, and what it means depends on the length of what it is a span of.  The commands
that take one are those that remove its elements and those that copy them.  They are refused if the span does
not fit, and they take exactly the elements at the indexes that it contains if it does:
`Workspace.spans_select`.
-/

namespace Growable

open Act

variable {σ α : Type} {E : Element σ α}

namespace Workspace

variable {ws : Workspace σ α} {a : Nat} {span : Span}

/-- What becomes of a span that fits the sequence `s` in register `a`: its elements, which are those at the
indexes that it contains, are removed, or clones of them are inserted. -/
structure SelectsSpan (E : Element σ α) (ws : Workspace σ α) (a : Nat) (s : Sequence α) (span : Span) : Prop where
  /-- The selected elements are dropped, the others close up, and nothing else happens. -/
  erased : ws.run E (.edit a (.eraseSpan span))
    = (.dropping .nothing (E.dropFault? (span.selected s.items) ws.world.code),
      { ws.put a (some (.elements { s with items := span.spared s.items })) with
        world := ws.world.after (E.dropEvents (span.selected s.items) ws.world.code)
          (E.afterDrops (span.selected s.items) ws.world.code) })
  /-- Whether the elements are in the sequence already, or come from elsewhere, makes no difference. -/
  copied (position : Nat) : ws.run E (.edit a (.insertOwn position span))
    = ws.run E (.edit a (.insertAll position (span.selected s.items)))
  /-- What is inserted are clones of the selected elements, one of each, in their order. -/
  cloned (position : Nat) :
    let result := ws.run E (.edit a (.insertOwn position span))
    result.1 = .answer .nothing → ∃ t made, result.2.sequence? a = some t ∧
      t.items = s.items.take position ++ made ++ s.items.drop position ∧
      made.length = (span.selected s.items).length ∧
      ∀ (k : Nat) (x : α), made[k]? = some x → E.ClonedFrom (span.selected s.items) k x
  /-- Where there is room for them, they are inserted for sure if none of the clones faults. -/
  inserted {position : Nat} {made : List α} {code : σ} (hposition : position ≤ s.len)
    (hroom : s.len + (span.selected s.items).length ≤ s.capacity)
    (hmax : s.len + (span.selected s.items).length ≤ s.maxSize E)
    (hmade : E.Clones (span.selected s.items) ws.world.code made code) :
    ws.run E (.edit a (.insertOwn position span)) = (.answer .nothing,
      { ws.put a (some (.elements
          { s with items := s.items.take position ++ made ++ s.items.drop position })) with
        world := ws.world.after (List.zipWith .cloned (span.selected s.items) made) code })

/-- The elements at the indexes that a span contains are those between its ends, if it fits. -/
theorem selects_of_within {s : Sequence α} {m : Multiset (Asset α)} (hs : ws.sequence? a = some s)
    (hsound : Sequence.Sound E m (s, ws.world)) (hfits : span.Fits s.len)
    (hwithin : span.within s.len = .ok (span.lower.first, span.upper.past s.len)) : SelectsSpan E ws a s span := by
  have hselected := Span.selected_eq s.items hfits
  have hspared := Span.spared_eq s.items hfits
  have hown : ∀ position, Sequence.insertOwn E position span (s, ws.world)
      = Sequence.insertAll E position (span.selected s.items) (s, ws.world) := by
    intro position
    rw [hselected]
    exact Sequence.insertOwn_eq_insertAll hwithin
  have hcopied : ∀ position, ws.run E (.edit a (.insertOwn position span))
      = ws.run E (.edit a (.insertAll position (span.selected s.items))) := by
    intro position
    have hperform : (Edit.insertOwn position span).perform E (s, ws.world)
        = (Edit.insertAll position (span.selected s.items)).perform E (s, ws.world) :=
      bind_congr_state (hown position) _
    rw [run_edit hs, run_edit hs, hperform]
  refine ⟨?_, hcopied, ?_, ?_⟩
  · rw [hselected, hspared]
    exact run_edit_raising rfl hs (Sequence.eraseSpan_raising hwithin)
  · intro position result hanswer
    have hresult : result = _ := hcopied position
    obtain ⟨u, hu, _, hdone, _⟩ := run_edit_cases (E := E) (e := .insertAll position (span.selected s.items)) rfl
      hs (Sequence.insertAll_meets position (span.selected s.items) hsound)
    rw [← hresult] at hu hdone
    obtain ⟨_, _, _, made, hlength, hmade, hitems⟩ := hdone hanswer
    exact ⟨u.1, made, hu, hitems, hlength, fun k x hx => Nat.zero_add k ▸ hmade k x hx⟩
  · intro position made code hposition hroom hmax hmade
    have hdone : (Edit.insertAll position (span.selected s.items)).perform E (s, ws.world)
        = .done .nothing (s.opened position made,
          ws.world.after (List.zipWith .cloned (span.selected s.items) made) code) :=
      bind_of_done (Sequence.insertAll_done hposition hroom hmax hmade)
    rw [hcopied position, run_edit hs, hdone]
    rfl

/-- A span that does not fit is refused, and nothing is changed. -/
structure RejectsSpan (E : Element σ α) (ws : Workspace σ α) (a : Nat) (s : Sequence α) (span : Span) : Prop where
  erased : ws.run E (.edit a (.eraseSpan span)) = (.refused (.outOfBounds (span.culprit s.len) s.len), ws)
  copied (position : Nat) :
    ws.run E (.edit a (.insertOwn position span)) = (.refused (.outOfBounds (span.culprit s.len) s.len), ws)

/-- An operation whose span is out of bounds is refused with the index at fault. -/
theorem rejects_of_within {s : Sequence α} (hs : ws.sequence? a = some s)
    (hwithin : span.within s.len = .error (.outOfBounds (span.culprit s.len) s.len)) :
    RejectsSpan E ws a s span := by
  have herased : Sequence.eraseSpan E span (s, ws.world)
      = .refused (.outOfBounds (span.culprit s.len) s.len) (s, ws.world) := by
    rw [Sequence.eraseSpan_eq, held_bind, hwithin]
    rfl
  have hcopied : ∀ position, Sequence.insertOwn E position span (s, ws.world)
      = .refused (.outOfBounds (span.culprit s.len) s.len) (s, ws.world) := by
    intro position
    rw [Sequence.insertOwn, held_bind, hwithin]
    rfl
  exact ⟨run_edit_refused hs (bind_of_refused herased),
    fun position => run_edit_refused hs (bind_of_refused (hcopied position))⟩

/-- The bits at the indexes that a span contains are removed in place. -/
theorem run_eraseBits_of_within {s : BitSequence} {m : Multiset (Asset α)} (hs : ws.bitSequence? a = some s)
    (hsound : BitSequence.Sound m (s, ws.world)) (hfits : span.Fits s.len)
    (hwithin : span.within s.len = .ok (span.lower.first, span.upper.past s.len)) :
    ∃ t : BitSequence, t.bits = span.spared s.bits ∧ t.region = s.region ∧ t.handle = s.handle ∧
      ws.run E (.editBits a (.eraseSpan span)) = (.answer .nothing, ws.put a (some (.bits t))) := by
  obtain ⟨⟨t, w⟩, hdone, hplace, hbits⟩ := BitSequence.eraseSpan_done hsound hwithin
  obtain rfl : w = ws.world := hplace.world_eq
  have hspared := Span.spared_eq s.bits ((BitSequence.length_bits s).symm ▸ hfits)
  rw [BitSequence.length_bits] at hspared
  exact ⟨t, hbits.trans hspared.symm, hplace.region_eq, hplace.handle_eq,
    run_editBits_done hs (bind_of_done hdone)⟩

/-- The same refusal leaves a bit sequence and its workspace. -/
theorem run_eraseBits_of_error {s : BitSequence} {e : SequenceError} (hs : ws.bitSequence? a = some s)
    (hwithin : span.within s.len = .error e) :
    ws.run E (.editBits a (.eraseSpan span)) = (.refused e, ws) := by
  have herased : BitSequence.eraseSpan span (s, ws.world) = .refused e (s, ws.world) := by
    rw [BitSequence.eraseSpan, held_bind, hwithin]
    rfl
  exact run_editBits_refused hs (bind_of_refused herased)

/-- **Spans select what they contain.**  A span whose bounds can be expressed is accepted within a length
exactly if it fits, and the indexes of its interval are those below the length that it contains; otherwise the
culprit is reported, with the length.  After every program, the elements at these indexes are what is removed
from a sequence, or what is copied within it, and the bits at these indexes are what is removed from a bit
sequence; where the span does not fit, nothing happens. -/
theorem spans_select (E : Element σ α) (registers : Nat) (accounts : List Account) (code : σ)
    (commands : List (Command σ α)) {span : Span} (hspan : span.Expressible) :
    let ws := (runAll E (initial registers accounts code) commands).2
    (∀ len ≤ Size.limit,
      span.within len = (if span.Fits len then .ok (span.lower.first, span.upper.past len)
        else .error (.outOfBounds (span.culprit len) len)) ∧
      ∀ i < len, span.lower.first ≤ i ∧ i < span.upper.past len ↔ span.contains i = true) ∧
    (∀ a s, ws.sequence? a = some s →
      (span.Fits s.len → SelectsSpan E ws a s span) ∧ (¬ span.Fits s.len → RejectsSpan E ws a s span)) ∧
    ∀ a s, ws.bitSequence? a = some s →
      (span.Fits s.len → ∃ t : BitSequence, t.bits = span.spared s.bits ∧ t.region = s.region ∧
        t.handle = s.handle ∧
        ws.run E (.editBits a (.eraseSpan span)) = (.answer .nothing, ws.put a (some (.bits t)))) ∧
      (¬ span.Fits s.len → ws.run E (.editBits a (.eraseSpan span))
        = (.refused (.outOfBounds (span.culprit s.len) s.len), ws)) := by
  intro ws
  have hcounted : Counted E ws := (counted_initial registers accounts code).runAll commands
  refine ⟨?_, ?_, ?_⟩
  · exact fun len hlen => ⟨Span.within_eq hspan hlen, fun i hi => (span.contains_iff hi).symm⟩
  · intro a s hs
    have hs' := hcounted.elements (container?_of_sequence? hs)
    have hwithin := Span.within_eq hspan hs'.countable.len_le
    constructor
    · intro hfits
      rw [if_pos hfits] at hwithin
      exact selects_of_within hs hs'.sound hfits hwithin
    · intro hunfit
      rw [if_neg hunfit] at hwithin
      exact rejects_of_within hs hwithin
  · intro a s hs
    have hs' := hcounted.bits (container?_of_bitSequence? hs)
    have hwithin := Span.within_eq hspan hs'.len_le
    constructor
    · intro hfits
      rw [if_pos hfits] at hwithin
      exact run_eraseBits_of_within hs hs'.sound hfits hwithin
    · intro hunfit
      rw [if_neg hunfit] at hwithin
      exact run_eraseBits_of_error hs hwithin

/-- Four probes and four bits: the two in the middle are removed, and copied.  A span from past the largest
index on is refused for that index, although its other end is past the length. -/
theorem spans_select_inner :
    let ws := (runAll Probe.element (initial 2 [.unlimited] none)
      [.createBits 1 (.ofList [true, false, true, true]) (Handle.of ⟨0, .shared⟩),
        .create 0 (.withCapacity 8) (Handle.of ⟨0, .shared⟩), .edit 0 (.push (.of 1)),
        .edit 0 (.push ⟨2, false, true⟩), .edit 0 (.push (.of 3)), .edit 0 (.push (.of 4))]).2
    let middle : Span := ⟨.excluded 0, .included 2⟩
    let beyond : Span := ⟨.excluded Size.limit, .included 9⟩
    (middle.Expressible ∧ beyond.Expressible ∧ 4 ≤ Size.limit) ∧
      middle.within 4 = .ok (1, 3) ∧ beyond.within 4 = .error (.outOfBounds Size.limit 4) ∧
      (ws.run Probe.element (.edit 0 (.eraseSpan middle))).1 = .faulted (.raised "probe d2") ∧
      (ws.run Probe.element (.edit 0 (.eraseSpan middle))).2.sequence? 0
        = some ⟨⟨8, some 1⟩, [.of 1, .of 4], Handle.of ⟨0, .shared⟩⟩ ∧
      (ws.run Probe.element (.edit 0 (.insertOwn 2 middle))).2.sequence? 0
        = some ⟨⟨8, some 1⟩, [.of 1, ⟨2, false, true⟩, .of 2, .of 3, .of 3, .of 4],
          Handle.of ⟨0, .shared⟩⟩ ∧
      (∃ t, (ws.run Probe.element (.editBits 1 (.eraseSpan middle))).2.bitSequence? 1 = some t ∧
        t.bits = [true, true]) ∧
      ws.run Probe.element (.edit 0 (.eraseSpan beyond)) = (.refused (.outOfBounds Size.limit 4), ws) := by
  intro ws middle beyond
  have hmiddle : middle.Expressible := ⟨by decide, by decide⟩
  have hbeyond : beyond.Expressible := ⟨by decide, by decide⟩
  have hlen : 4 ≤ Size.limit := by decide
  have hs : ws.sequence? 0 = some ⟨⟨8, some 1⟩, [.of 1, ⟨2, false, true⟩, .of 3, .of 4],
      Handle.of ⟨0, .shared⟩⟩ := rfl
  have hbits : ws.bitSequence? 1 = some ⟨some 0, #[13], 4, Handle.of ⟨0, .shared⟩⟩ := rfl
  obtain ⟨hwithin, hselects, hselectsBits⟩ := spans_select Probe.element 2 [.unlimited] none
    [.createBits 1 (.ofList [true, false, true, true]) (Handle.of ⟨0, .shared⟩),
      .create 0 (.withCapacity 8) (Handle.of ⟨0, .shared⟩), .edit 0 (.push (.of 1)),
      .edit 0 (.push ⟨2, false, true⟩), .edit 0 (.push (.of 3)), .edit 0 (.push (.of 4))] hmiddle
  obtain ⟨hwithin', hrejects, _⟩ := spans_select Probe.element 2 [.unlimited] none
    [.createBits 1 (.ofList [true, false, true, true]) (Handle.of ⟨0, .shared⟩),
      .create 0 (.withCapacity 8) (Handle.of ⟨0, .shared⟩), .edit 0 (.push (.of 1)),
      .edit 0 (.push ⟨2, false, true⟩), .edit 0 (.push (.of 3)), .edit 0 (.push (.of 4))] hbeyond
  have hmade : Probe.element.Clones [⟨2, false, true⟩, .of 3] none [.of 2, .of 3] none :=
    .cons rfl (.cons rfl (.nil none))
  have hfits : middle.Fits 4 := by decide
  have hunfit : ¬ beyond.Fits 4 := by decide
  have haccepted := (hwithin 4 hlen).1
  have hrefused := (hwithin' 4 hlen).1
  rw [if_pos hfits] at haccepted
  rw [if_neg hunfit, show beyond.culprit 4 = Size.limit by decide] at hrefused
  have hselected := (hselects 0 _ hs).1 hfits
  have hrejected := ((hrejects 0 _ hs).2 hunfit).erased
  obtain ⟨t, ht, _, _, herased⟩ := (hselectsBits 1 _ hbits).1 hfits
  refine ⟨⟨hmiddle, hbeyond, hlen⟩, haccepted, hrefused, congrArg Prod.fst hselected.erased,
    congrArg (·.2.sequence? 0) hselected.erased, ?_, ⟨t, congrArg (·.2.bitSequence? 1) herased, ht⟩, hrejected⟩
  have hposition : 2 ≤ 4 := by decide
  exact congrArg (·.2.sequence? 0) (hselected.inserted hposition (by decide) (by decide) hmade)

end Workspace

end Growable
