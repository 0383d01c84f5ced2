import Growable.BitSequence.Assignment
import Growable.Proofs.BitSequence.Window
import Growable.Proofs.Items

/-!
# What assignment of bits does

New contents are written over the old ones; what is left of the old ones is cleared, and the new length
is declared.

* `assignCopies_meets`, `assignAll_meets`, `assignFeed_meets` — the contents are replaced;
* `copyFrom_meets`, `moveFrom_meets` — by those of another bit sequence;
* `replicate_meets`, `ofList_meets`, `read_meets` — a bit sequence of given bits.
-/

namespace Growable.BitSequence

open Word.Run (bitAt overlaid overlaid_of_mem overlaid_of_not_mem Rewrites)

variable {σ α : Type} {s other : BitSequence} {w : World σ α} {m : Multiset (Asset α)}
  {capacity len : Nat} {f : Nat → Bool} {ys : List Bool}

/-- New bits stand before what is left of the old ones, and there are no others. -/
structure Begins (ys : List Bool) (len : Nat) (f : Nat → Bool) : Prop where
  new : ∀ i < ys.length, ys[i]? = some (f i)
  clear : ∀ i, ys.length ≤ i → len ≤ i → f i = false

/-- What is left of the old bits is cleared, and the new length is declared. -/
theorem Loose.settle_meets (hs : Loose m capacity len f (s, w)) (hlen : len ≤ capacity)
    (hroom : ys.length ≤ capacity) (hf : Begins ys len f) :
    ((do truncate ys.length; setLen ys.length : BitAct σ α Unit) (s, w)).Meets
      (.returns fun _ u => Sound m u ∧ u.1.bits = ys) := by
  apply Act.bind_of_returns (hs.truncate_meets ys.length hlen)
  intro _ u hu
  obtain ⟨t, w'⟩ := u
  apply (setLen_meets ys.length hu).of_returns
  intro _ u hu
  obtain ⟨t', w''⟩ := u
  constructor
  · apply hu.sound hroom
    intro i hi
    by_cases hin : i < len
    · exact overlaid_of_mem hi hin
    · rw [overlaid_of_not_mem (by omega)]
      exact hf.clear i hi (Nat.le_of_not_lt hin)
  · apply bits_eq_of hu.len_eq
    intro i hi
    rw [hu.len_eq] at hi
    rw [hu.bits_eq, overlaid_of_not_mem (by omega), hf.new i hi]

/-- New bits are written from the first place on, where the old ones are sound. -/
theorem Sound.begins {g : Nat → Bool} (hs : Sound m (s, w))
    (hg : ∀ i < ys.length, ys[i]? = some (g i)) :
    Begins ys s.len (overlaid (bitAt s.words) 0 ys.length g) := by
  constructor
  · intro i hi
    rw [overlaid_of_mem (Nat.zero_le i) hi]
    exact hg i hi
  · intro i hi hlen
    rw [overlaid_of_not_mem (by omega)]
    exact hs.clear hlen

/-- New contents are written where there is room for them, or there is a lack of memory. -/
theorem assign_meets {n : Nat} {work : BitAct σ α Unit} (hs : Sound m (s, w)) (hn : n = ys.length)
    (hwork : ∀ t w', Sound m (t, w') → ys.length ≤ t.capacity → (work (t, w')).Meets
      (.returns fun _ u => ∃ g, Loose m t.capacity t.len g u ∧ Begins ys t.len g)) :
    ((do reserve n; work; truncate n; setLen n : BitAct σ α Unit) (s, w)).Meets
      (follows m s (ListAct.assign ys)) := by
  subst hn
  rw [Act.bind_meets]
  apply (reserve_meets ys.length hs).imp
  · intro _ u hu
    obtain ⟨t, w'⟩ := u
    obtain ⟨ht, _, _, _, hroom⟩ := hu
    apply Act.bind_of_returns (hwork t w' ht hroom)
    intro _ u hu
    obtain ⟨t', w''⟩ := u
    obtain ⟨g, hu, hg⟩ := hu
    apply (hu.settle_meets ht.len_le hroom hg).of_returns
    exact fun _ u hu => follows_done rfl hu.1 hu.2
  · exact fun e u hu =>
      follows_lack (Outcome.accepted_done _ _) hu.1 hu.2.1 (congrArg bits hu.2.2)
  · exact fun _ _ hu => hu.2.elim

/-- The contents become copies of one bit, unless memory is lacking for them. -/
theorem assignCopies_meets (count : Nat) (value : Bool) (hs : Sound m (s, w)) :
    (assignCopies count value (s, w)).Meets
      (follows m s (ListAct.assign (List.replicate count value))) := by
  have hcount : (List.replicate count value).length = count := List.length_replicate
  apply assign_meets hs hcount.symm
  intro t w' ht hroom
  rw [hcount] at hroom
  apply (fill_meets value 0 ht.loose hroom).of_returns
  intro _ u hu
  rw [← hcount] at hu
  refine ⟨_, hu, ht.begins fun i hi => ?_⟩
  rw [hcount] at hi
  rw [List.getElem?_replicate, if_pos hi]

/-- The contents become the given bits, unless memory is lacking for them. -/
theorem assignAll_meets (values : List Bool) (hs : Sound m (s, w)) :
    (assignAll values (s, w)).Meets (follows m s (ListAct.assign values)) := by
  apply assign_meets hs rfl
  intro t w' ht hroom
  have hwhole : 0 + values.length ≤ t.capacity := (Nat.zero_add _).trans_le hroom
  apply (write_meets 0 values ht.loose hwhole).of_returns
  intro _ u hu
  rw [Nat.zero_add] at hu
  refine ⟨_, hu, ht.begins fun i hi => ?_⟩
  rw [Nat.sub_zero, List.getElem?_eq_getElem hi]
  rfl

/-- What an iterator yields is put into the sequence once that is empty. -/
theorem assignFeed_meets (feed : Feed Bool) (hs : Sound m (s, w)) :
    (assignFeed feed (s, w)).Meets (soundly m
      (refining bits (ListAct.feedInto feed feed.members feed.members)
        fun left => ∃ n, left = feed.members.take n)) := by
  rw [assignFeed, Act.bind_meets]
  apply (clear_meets hs).of_returns
  intro _ u hu
  obtain ⟨t, w'⟩ := u
  obtain ⟨ht, hnone⟩ := hu
  have hpush := pushFeed_meets feed ht
  rw [hnone] at hpush
  apply soundly_imp hpush
  · intro _ t' ht'
    exact (ListAct.feedInto_of_none ht'.1 _ _).trans (congrArg _ ht'.2.symm)
  · intro e t' ht'
    obtain ⟨hlack, n, hleft⟩ := ht'
    exact .inr ⟨hlack, ListAct.feedInto_accepted _ _ _, n, hleft⟩
  · intro f t' ht'
    obtain ⟨⟨message, hraised, rfl⟩, hbits⟩ := ht'
    exact (ListAct.feedInto_of_some hraised _ _).trans (congrArg _ hbits.symm)

/-! ## New bit sequences -/

/-- New contents of an empty sequence make a new one. -/
theorem build_assigned_meets {work : BitAct σ α Unit} (handle : Handle)
    (hwork : (work (empty handle, w)).Meets (follows m (empty handle) (ListAct.assign ys))) :
    ((do
      let (s, _) ← build handle work
      return s : Act (World σ α) BitSequence) w).Meets
        (created m (fun s => s.bits = ys) fun _ => False) := by
  simp only [Act.bind_meets, Act.pure_meets]
  apply (build_meets handle hwork).imp
  · intro r w' hr
    obtain ⟨hs, hdone⟩ := hr
    injection hdone with _ hbits
    exact ⟨hs, hbits.symm⟩
  · intro e w' he
    rcases he with ⟨h', t, hrefused | hlack⟩
    · cases hrefused
    · exact ⟨hlack.1, h'⟩
  · intro f w' hf
    obtain ⟨_, t, hfaulted⟩ := hf
    cases hfaulted

/-- A new bit sequence of copies of one bit, or none. -/
theorem replicate_meets (count : Nat) (value : Bool) (handle : Handle) (h : w.Owns m) :
    (replicate count value handle w).Meets
      (created m (fun s => s.bits = List.replicate count value) fun _ => False) :=
  build_assigned_meets handle (assignCopies_meets count value (sound_empty handle h))

/-- A new bit sequence of given bits, or none. -/
theorem ofList_meets (values : List Bool) (handle : Handle) (h : w.Owns m) :
    (ofList values handle w).Meets (created m (fun s => s.bits = values) fun _ => False) :=
  build_assigned_meets handle (assignAll_meets values (sound_empty handle h))

/-! ## Another bit sequence's contents -/

/-- The first words are other words. -/
theorem bitAt_overwrite {words source : Array Word} (hsize : source.size ≤ words.size) (i : Nat) :
    bitAt (source ++ words.extract source.size words.size) i
      = if i < Word.size * source.size then bitAt source i else bitAt words i := by
  obtain ⟨k, p, hp, rfl⟩ := Word.Run.exists_split i
  have hk : (Word.size * k + p) / Word.size = k := by
    rw [Nat.mul_add_div (by decide), Nat.div_eq_of_lt hp, Nat.add_zero]
  have hword : (source ++ words.extract source.size words.size)[k]?
      = if k < source.size then source[k]? else words[k]? := by
    rw [Array.getElem?_append]
    by_cases hlt : k < source.size
    · rw [if_pos hlt, if_pos hlt]
    · have hplace : source.size + (k - source.size) = k := by omega
      rw [if_neg hlt, if_neg hlt, Array.getElem?_extract, Nat.min_self, hplace]
      by_cases hin : k < words.size
      · rw [if_pos (by omega)]
      · rw [if_neg (by omega), Array.getElem?_eq_none (Nat.le_of_not_lt hin)]
  simp only [bitAt, Word.Run.bit?, Word.split, hk, hword]
  by_cases hlt : k < source.size
  · rw [if_pos hlt, if_pos]
    have hle : Word.size * (k + 1) ≤ Word.size * source.size := Nat.mul_le_mul_left _ hlt
    rw [Nat.mul_add] at hle
    omega
  · rw [if_neg hlt, if_neg]
    have hle : Word.size * source.size ≤ Word.size * k :=
      Nat.mul_le_mul_left _ (Nat.le_of_not_lt hlt)
    omega

/-- The words of another bit sequence are written over the first ones; behind its bits, anything may
follow. -/
theorem writeWords_meets (ho : other.Valid) (hs : Sound m (s, w)) (hroom : other.len ≤ s.capacity) :
    (writeWords other.asWords (s, w)).Meets (.returns fun _ u =>
      ∃ g, Loose m s.capacity s.len g u ∧ Begins other.bits s.len g) := by
  have hsize : other.asWords.size ≤ s.words.size := by
    rw [size_asWords ho]
    exact Word.wordsFor_le.mpr hroom
  have hwords := Word.le_wordsFor other.len
  rw [← size_asWords ho, Nat.mul_comm] at hwords
  apply (changeWords_meets hs.loose ⟨_, if_pos hsize, ?_, fun i => bitAt_overwrite hsize i⟩).of_returns
  · intro _ u hu
    refine ⟨_, hu, fun i hi => ?_, fun i hi hlen => ?_⟩
    · rw [length_bits] at hi
      rw [if_pos (by omega), bitAt_asWords ho, getElem?_bits hi]
    · rw [length_bits] at hi
      rw [bitAt_asWords ho, ho.clear i hi, hs.clear hlen, ite_self]
  · rw [Array.size_append, Array.size_extract]
    omega

/-- The contents become those of the other bit sequence, unless memory is lacking for them. -/
theorem copyFrom_meets (ho : other.Valid) (hs : Sound m (s, w)) :
    (copyFrom other (s, w)).Meets (follows m s (ListAct.assign other.bits)) := by
  simp only [copyFrom, Act.bind_meets, Act.held_meets, Act.ite_meets, Act.inWorld_meets,
    Act.hold_meets, Act.pure_meets]
  constructor
  · intro _
    apply (copy_meets ho hs.owns).imp
    · intro t w' ht
      obtain ⟨ht, hbits, _⟩ := ht
      have howns : w'.Owns (s.assets + (t.assets + m)) := ht.owns.of_eq (add_left_comm _ _ _)
      apply (dispose_meets hs.valid howns).of_returns
      exact fun _ w'' h' => follows_done rfl ⟨ht.valid, h'⟩ hbits
    · exact fun e w' he => follows_lack (Outcome.accepted_done _ _) ⟨hs.valid, he.2⟩ he.1 rfl
    · exact fun _ _ hf => hf.2.elim
  · intro _
    have hassign := assign_meets hs (length_bits other).symm
      fun t w' ht hroom => writeWords_meets ho ht ((length_bits other).symm.trans_le hroom)
    have hhandle : ∀ u : BitSequence × World σ α,
        (follows m s (ListAct.assign other.bits)).done () u → ((do
          if other.handle.propagates then
            let s ← Act.held
            Act.hold { s with handle := other.handle } : BitAct σ α Unit) u).Meets
          (follows m s (ListAct.assign other.bits)) := by
      intro u hu
      obtain ⟨t, w'⟩ := u
      simp only [Act.bind_meets, Act.held_meets, Act.ite_meets, Act.hold_meets, Act.pure_meets]
      constructor
      · exact fun _ => ⟨⟨⟨hu.1.valid.region, hu.1.len_le, hu.1.valid.clear⟩, hu.1.owns⟩, hu.2⟩
      · exact fun _ => hu
    have hwhole := Act.bind_meets.mpr (hassign.imp (fun _ => hhandle) (fun _ _ => id) fun _ _ => id)
    simp only [Act.bind_meets, Act.ite_meets, Act.pure_meets] at hwhole
    exact hwhole

/-- Two valid bit sequences whose words are in custody, beside the assets `m`. -/
structure SoundPair (m : Multiset (Asset α)) (u : (BitSequence × BitSequence) × World σ α) :
    Prop where
  first : u.1.1.Valid
  second : u.1.2.Valid
  owns : u.2.Owns (u.1.1.assets + (u.1.2.assets + m))

/-- The second sequence of a pair is sound beside the assets of the first one. -/
theorem SoundPair.sound_second (h : SoundPair m ((s, other), w)) :
    Sound (s.assets + m) (other, w) :=
  ⟨h.second, h.owns.of_eq (add_left_comm _ _ _)⟩

/-- Words with the bits of another sequence take the place of the old ones. -/
theorem install_bits_meets {block : Option Block} {words : Array Word} (hs : s.Valid)
    (ho : other.Valid) (hregion : (⟨words.size, block⟩ : Region).Valid Word.shape)
    (hroom : other.len ≤ words.size * Word.size) (hsame : ∀ i, bitAt words i = bitAt other.words i)
    (h : w.Owns ((⟨words.size, block⟩ : Region).assets Word.shape + (s.assets + m))) :
    (install block words other.len (s, w)).Meets (.returns fun _ u => Sound m u ∧
      u.1.bits = other.bits) := by
  apply (install_meets hs.region hregion h).of_returns
  intro _ u hu
  obtain ⟨t, w'⟩ := u
  obtain ⟨hheld, ht⟩ := hu
  dsimp only at ht
  subst ht
  refine ⟨hheld.sound hroom fun i hi => ?_, bits_eq_of_same rfl fun i _ => hsame i⟩
  exact (hsame i).trans (ho.clear i hi)

/-- The contents of the second bit sequence go to the first one, and nothing is left of them in the
second. -/
theorem moveFrom_meets (h : SoundPair m ((s, other), w)) :
    (moveFrom ((s, other), w)).Meets
      ⟨fun _ u => SoundPair m u ∧ u.1.1.bits = other.bits ∧ u.1.2.bits = [],
        fun e u => SoundPair m u ∧ e.IsLack ∧ u.1 = (s, other), fun _ _ => False⟩ := by
  have ho : other.Valid := h.second
  simp only [moveFrom, Act.bind_meets, Act.held_meets, Act.ite_meets, Act.hold_meets,
    Act.inWorld_meets, Act.onFirst_meets]
  constructor
  · intro _
    have hrest : (empty other.handle).Valid := valid_empty other.handle
    have howns : w.Owns (other.region.assets Word.shape +
        (s.assets + ((empty other.handle).assets + m))) := by
      apply h.owns.of_eq
      rw [assets_empty, zero_add]
      exact add_left_comm _ _ _
    apply (install_bits_meets h.first ho ho.region ho.len_le (fun _ => rfl) howns).of_returns
    exact fun _ u hu => ⟨⟨hu.1.valid, hrest, hu.1.owns⟩, hu.2, rfl⟩
  · intro _
    apply (allocateCopy_meets s.handle.allocator (Nat.le_refl other.asWords.size) w).imp
    · intro r w₁ hr
      obtain ⟨block, words⟩ := r
      obtain ⟨hsize, hbits, hregion, hgranted⟩ := hr
      dsimp only at hsize
      rw [← hsize] at hregion hgranted
      have hroom : other.len ≤ words.size * Word.size := by
        rw [hsize, size_asWords ho]
        exact Word.le_wordsFor _
      have hsame : ∀ i, bitAt words i = bitAt other.words i :=
        fun i => (hbits i).trans (bitAt_asWords ho i)
      have howns := hgranted _ (h.owns.of_eq (zero_add _).symm)
      apply (install_bits_meets h.first ho hregion hroom hsame howns).of_returns
      intro _ u hu
      obtain ⟨t, w₂⟩ := u
      dsimp only
      have hpair : SoundPair m ((t, other), w₂) := ⟨hu.1.valid, ho, hu.1.owns⟩
      rw [Act.onSecond_meets]
      apply (clear_meets hpair.sound_second).of_returns
      intro _ u' hu'
      exact ⟨⟨hu.1.valid, hu'.1.valid, hu'.1.owns.of_eq (add_left_comm _ _ _)⟩, hu.2, hu'.2⟩
    · intro e w₁ he
      have howns := he.2 _ (h.owns.of_eq (zero_add _).symm)
      exact ⟨⟨h.first, h.second, howns.of_eq (zero_add _)⟩, he.1, trivial⟩
    · exact fun _ _ => False.elim

/-- However moving ends, it leaves a sound pair behind. -/
theorem SoundPair.moved (h : SoundPair m ((s, other), w)) :
    (moveFrom ((s, other), w)).Meets (.always (SoundPair m)) :=
  (moveFrom_meets h).imp (fun _ _ hu => hu.1) (fun _ _ hu => hu.1) (fun _ _ => False.elim)

/-! ## Items that are read -/

/-- A bit that is pushed comes behind the others; memory may be lacking for it. -/
theorem push_appends (value : Bool) (hs : Sound m (s, w)) : (push value (s, w)).Meets (soundly m
    ⟨fun _ t => t.bits = s.bits ++ [value], fun e t => e.IsLack ∧ t.bits = s.bits, fun _ _ => False⟩) := by
  apply soundly_imp (push_meets value hs)
  · intro _ t hbits
    exact (congrArg Outcome.state hbits).symm
  · rintro e t (hrefused | ⟨hlack, -, hbits⟩)
    · cases hrefused
    · exact ⟨hlack, hbits⟩
  · intro f t hfaulted
    cases hfaulted

/-- The items that are read come behind the bits up to the first item that is not valid, or that
cannot be read. -/
theorem pushValid_meets (items : Feed (Option Bool)) (hs : Sound m (s, w)) :
    (items.pushValid push (s, w)).Meets (soundly m
      ⟨fun valid t => ∃ xs, t.bits = s.bits ++ xs ∧ items.readItems = .ok (if valid then some xs else none),
        fun e _ => e.IsLack, fun f _ => items.ReadFaults f⟩) := by
  have hpush : ∀ value (u : BitSequence × World σ α), Sound m u → (push value u).Meets
      ⟨fun _ v => Sound m v ∧ v.1.bits = u.1.bits ++ [value], fun e v => Sound m v ∧ e.IsLack,
        fun _ _ => False⟩ := by
    rintro value ⟨t, w'⟩ ht
    exact (push_appends value ht).imp (fun _ _ => id) (fun _ _ hv => ⟨hv.1, hv.2.1⟩) fun _ _ hv => hv.2
  exact (Feed.pushValid_meets (fun u => u.1.bits) hpush items hs).imp (fun _ _ => id)
    (fun _ _ => id) fun _ _ => Or.rec id False.elim

/-- A bit sequence of the items that are read, if these are all valid; whatever else happens, nothing is
left. -/
theorem read_meets (hint : Option Nat) (items : Feed (Option Bool)) (handle : Handle)
    (h : w.Owns m) :
    (read hint items handle w).Meets
      ⟨fun r w' => items.readItems = .ok (r.map bits) ∧
          match r with
          | some s => Sound m (s, w')
          | none => w'.Owns m,
        fun e w' => e.IsLack ∧ w'.Owns m, fun f w' => w'.Owns m ∧ items.ReadFaults f⟩ := by
  have hwork : ((do reserveHinted hint; items.pushValid push : BitAct σ α Bool)
      (empty handle, w)).Meets (soundly m
        ⟨fun valid t => items.readItems = Except.ok (if valid then some t.bits else none),
          fun e _ => e.IsLack, fun f _ => items.ReadFaults f⟩) := by
    simp only [reserveHinted, Act.bind_meets, Act.held_meets]
    apply (reserve_meets _ (sound_empty handle h)).imp
    · intro _ u hu
      obtain ⟨t, w'⟩ := u
      obtain ⟨ht, hsame, hlen, _⟩ := hu
      have hnone : t.bits = [] := List.length_eq_zero_iff.mp ((length_bits t).trans hlen)
      refine soundly_imp (pushValid_meets items ht) ?_ (fun _ _ => id) (fun _ _ => id)
      rintro valid t' ⟨xs, hpushed, hread⟩
      have hxs : t'.bits = xs := by rw [hpushed, hnone, List.nil_append]
      rw [← hxs] at hread
      exact hread
    · exact fun e u hu => ⟨hu.1, hu.2.1⟩
    · exact fun _ _ hu => hu.2.elim
  simp only [read, Act.bind_meets]
  apply (build_meets handle hwork).imp
  · intro r w' hr
    obtain ⟨s, valid⟩ := r
    obtain ⟨hs, hread⟩ := hr
    cases valid with
    | true => exact ⟨hread, hs⟩
    | false =>
        apply Act.bind_of_returns (dispose_meets hs.valid hs.owns)
        exact fun _ w'' h' => ⟨hread, h'⟩
  · intro e w' he
    obtain ⟨h', _, hlack⟩ := he
    exact ⟨hlack, h'⟩
  · intro f w' hf
    obtain ⟨h', _, hread⟩ := hf
    exact ⟨h', hread⟩

end Growable.BitSequence
