import Growable.BitSequence.Content
import Growable.Proofs.BitSequence.Storage
import Growable.Proofs.Word.Reversal
import Growable.Proofs.ListAct

/-!
# What inserting and removing bits does

The operations on words change the bits of a run; here this is read as an operation on the list of the
bits, once the length is declared.  In between, a bit sequence is `Loose`: its words have known bits, but
these need not be clear behind its length.

Each operation follows the operation on plain lists of the same name (`follows`), and leaves the bits
past the length clear.

* `push_meets`, `pop_meets`, `truncate_meets`, `resize_meets` — at the end;
* `insertCopies_meets`, `insertAll_meets`, `insertFeed_meets` — at a position;
* `erase_meets`, `eraseSpan_meets` — in the middle.
-/

namespace Growable

open Word.Run (bitAt overlaid overlaid_of_mem overlaid_of_not_mem Rewrites)

variable {σ α β : Type}

/-- What a change answers and makes of a bit. -/
def BitChange.onBit (change : BitChange) (old : Bool) : Option Bool × Bool :=
  match change with
  | get => (some old, old)
  | set value => (none, value)
  | replace value => (some old, value)
  | flip => (some (!old), !old)

/-- A change of one bit of a word answers what it answers for that bit, and leaves the other bits
alone. -/
theorem BitChange.apply_eq (change : BitChange) (word : Word) {place : Nat}
    (hplace : place < Word.size) :
    (change.apply word place).1 = (change.onBit (word.getLsbD place)).1 ∧
      ∀ j, (change.apply word place).2.getLsbD j
        = if j = place then (change.onBit (word.getLsbD place)).2 else word.getLsbD j := by
  have hmod : place % Word.size = place := Nat.mod_eq_of_lt hplace
  cases change with
  | get =>
      refine ⟨by rw [apply, onBit, Word.isSet_eq, hmod], fun j => ?_⟩
      by_cases hj : j = place
      · rw [if_pos hj, hj]
        rfl
      · rw [if_neg hj]
        rfl
  | set value => exact ⟨rfl, Word.getLsbD_assign word hplace value⟩
  | replace value =>
      exact ⟨by rw [apply, onBit, Word.isSet_eq, hmod], Word.getLsbD_assign word hplace value⟩
  | flip =>
      have hflip := Word.getLsbD_flip word hplace
      refine ⟨?_, fun j => ?_⟩
      · rw [apply, onBit, Word.isSet_eq, hmod, hflip, if_pos rfl]
      · rw [apply, onBit, hflip]
        by_cases hj : j = place
        · rw [if_pos hj, if_pos hj, hj]
        · rw [if_neg hj, if_neg hj]

/-- What changes of a bit answer, one after the other, and what they make of it in the end. -/
def BitChange.onBits : List BitChange → Bool → List (Option Bool) × Bool
  | [], old => ([], old)
  | change :: rest, old =>
    let (answer, new) := change.onBit old
    let (answers, last) := onBits rest new
    (answer :: answers, last)

/-- Puts a bit in the place of the one at an index, and comes to that one. -/
def ListAct.setBit (index : Nat) (value : Bool) : ListAct Bool (Option Bool) := do
  return some (← exchange index value)

/-- Changes the bit at an index again and again; comes to what the changes answer. -/
def ListAct.changeBit (index : Nat) (changes : List BitChange) :
    ListAct Bool (List (Option Bool)) := do
  let old ← pick index
  let (answers, last) := BitChange.onBits changes old
  Act.modify (·.set index last)
  return answers

namespace BitSequence

variable {s : BitSequence} {w : World σ α} {m : Multiset (Asset α)} {capacity len : Nat}
  {f : Nat → Bool}

/-! ## Single bits and runs -/

/-- The words are in custody, beside the assets `m`, and their bits are `f`. -/
structure Loose (m : Multiset (Asset α)) (capacity len : Nat) (f : Nat → Bool)
    (u : BitSequence × World σ α) : Prop where
  held : Held m u
  capacity_eq : u.1.capacity = capacity
  len_eq : u.1.len = len
  bits_eq : bitAt u.1.words = f

/-- A sound sequence shows its own bits. -/
theorem Sound.loose (hs : Sound m (s, w)) : Loose m s.capacity s.len (bitAt s.words) (s, w) :=
  ⟨hs.held, rfl, rfl, rfl⟩

/-- A sequence is sound again once it is no longer than its room and clear behind its length. -/
theorem Loose.sound {u : BitSequence × World σ α} (hu : Loose m capacity len f u)
    (hlen : len ≤ capacity) (hclear : ∀ i, len ≤ i → f i = false) : Sound m u := by
  obtain ⟨hheld, rfl, rfl, rfl⟩ := hu
  exact hheld.sound hlen hclear

/-- As many other words, with other bits. -/
theorem Loose.with_words (hs : Loose m capacity len f (s, w)) {words : Array Word}
    (hsize : words.size = s.words.size) {g : Nat → Bool} (hbits : ∀ i, bitAt words i = g i) :
    Loose m capacity len g ({ s with words }, w) := by
  refine ⟨hs.held.change hsize s.len, ?_, hs.len_eq, funext hbits⟩
  rw [← hs.capacity_eq, BitSequence.capacity, BitSequence.capacity, hsize]

/-- Whatever the capacity reaches, the words reach. -/
theorem Loose.le_words {n : Nat} (hs : Loose m capacity len f (s, w)) (hn : n ≤ capacity) :
    n ≤ Word.size * s.words.size := by
  rw [Nat.mul_comm]
  exact Nat.le_trans hn hs.capacity_eq.ge

/-- Declaring a length changes no bit. -/
theorem setLen_meets (n : Nat) (hs : Loose m capacity len f (s, w)) :
    (setLen n (s, w)).Meets (.returns fun _ u => Loose m capacity n f u) := by
  simp only [setLen, Act.bind_meets, Act.held_meets, Act.hold_meets]
  exact ⟨hs.held.change rfl n, hs.capacity_eq, rfl, hs.bits_eq⟩

/-- A change that the words admit is made, and the world is not involved. -/
theorem changeWords_of_some {change : Array Word → Option (Array Word)} {words : Array Word}
    (h : change s.words = some words) : changeWords change (s, w) = .done () ({ s with words }, w) := by
  rw [changeWords, Act.held_bind, h]
  rfl

/-- A change of the words shows in the bits as it is said to rewrite them. -/
theorem changeWords_meets {change : Array Word → Option (Array Word)} {g : Nat → Bool}
    (hs : Loose m capacity len f (s, w)) (h : Rewrites s.words (change s.words) g) :
    (changeWords change (s, w)).Meets (.returns fun _ u => Loose m capacity len g u) := by
  obtain ⟨words, hchange, hsize, hbits⟩ := h
  simp only [changeWords, Act.bind_meets, Act.held_meets, hchange, Act.ofOption_meets,
    Act.hold_meets]
  refine ⟨fun words' hwords => ?_, fun hnone => by cases hnone⟩
  obtain rfl := Option.some.inj hwords
  exact hs.with_words hsize hbits

/-- A run of bits is overlaid with one bit. -/
theorem fill_meets (value : Bool) (start : Nat) {stop : Nat} (hs : Loose m capacity len f (s, w))
    (hstop : stop ≤ capacity) :
    (changeWords (Word.Run.fill value start stop) (s, w)).Meets
      (.returns fun _ u => Loose m capacity len (overlaid f start stop fun _ => value) u) :=
  changeWords_meets hs (hs.bits_eq ▸ Word.Run.fill_spec value (hs.le_words hstop))

/-- A run of bits is overlaid with another run, as that one was before. -/
theorem move_meets (source destination count : Nat) (hs : Loose m capacity len f (s, w))
    (hsource : source + count ≤ capacity) (hdestination : destination + count ≤ capacity) :
    (changeWords (fun words => Word.Run.move words source destination count) (s, w)).Meets
      (.returns fun _ u => Loose m capacity len (overlaid f destination (destination + count)
        fun i => f (i - destination + source)) u) :=
  changeWords_meets hs (hs.bits_eq ▸
    Word.Run.move_spec (hs.le_words hsource) (hs.le_words hdestination))

/-- A run of bits is overlaid with itself from back to front. -/
theorem reverse_meets (start : Nat) {stop : Nat} (hs : Loose m capacity len f (s, w))
    (hstop : stop ≤ capacity) :
    (changeWords (Word.Run.reverse start stop) (s, w)).Meets (.returns fun _ u =>
      Loose m capacity len (overlaid f start stop fun i => f (start + stop - 1 - i)) u) :=
  changeWords_meets hs (hs.bits_eq ▸ Word.Run.reverse_spec (hs.le_words hstop))

/-- A bit that there is room for can be looked at. -/
theorem bit_meets {index : Nat} (h : index < s.capacity) :
    (bit index (s, w)).Meets (.returns fun b u => b = bitAt s.words index ∧ u = (s, w)) := by
  have hword : index / Word.size < s.words.size := (Nat.div_lt_iff_lt_mul (by decide)).mpr h
  have hbit : Word.Run.bit? s.words index = some (bitAt s.words index) := by
    simp only [bitAt, Word.Run.bit?, Word.split, Array.getElem?_eq_getElem hword, Option.map_some,
      Option.getD_some]
  simp only [bit, Act.bind_meets, Act.held_meets, hbit, Act.ofOption_meets]
  refine ⟨fun b hb => ⟨(Option.some.inj hb).symm, rfl⟩, fun hnone => by cases hnone⟩

/-- A single bit is changed as the change says for it. -/
theorem changeBit_meets {index : Nat} (change : BitChange) (hs : Loose m capacity len f (s, w))
    (h : index < capacity) :
    (changeBit index change (s, w)).Meets (.returns fun answer u =>
      answer = (change.onBit (f index)).1 ∧ Loose m capacity len
        (fun i => if i = index then (change.onBit (f index)).2 else f i) u) := by
  obtain ⟨k, p, hp, rfl⟩ := Word.Run.exists_split index
  have hsplit : Word.split (Word.size * k + p) = (k, p) := by
    rw [Word.split, Nat.mul_add_div (by decide), Nat.mul_add_mod, Nat.div_eq_of_lt hp,
      Nat.mod_eq_of_lt hp, Nat.add_zero]
  have hk : k < s.words.size := by
    apply Nat.lt_of_mul_lt_mul_left (a := Word.size)
    have hle := hs.le_words h
    omega
  have hword := Array.getElem?_eq_getElem hk
  have hat : f (Word.size * k + p) = s.words[k].getLsbD p := by
    rw [← hs.bits_eq]
    exact Word.Run.bitAt_of_word hword hp
  obtain ⟨hanswer, hbits⟩ := change.apply_eq s.words[k] hp
  simp only [changeBit, Act.bind_meets, Act.held_meets, hsplit, hword, Act.ofOption_meets,
    Act.hold_meets, Act.pure_meets]
  refine ⟨fun old hold => ?_, fun hnone => by cases hnone⟩
  obtain rfl := Option.some.inj hold
  rw [hat]
  refine ⟨hanswer, hs.with_words (by rw [Array.size_setIfInBounds]) fun i => ?_⟩
  obtain ⟨k', p', hp', rfl⟩ := Word.Run.exists_split i
  rw [Word.Run.bitAt_setIfInBounds hk _ _ hp', hbits]
  by_cases hsame : k' = k
  · subst hsame
    rw [if_pos rfl, ← hs.bits_eq, Word.Run.bitAt_of_word hword hp']
    by_cases hplace : p' = p
    · rw [if_pos hplace, if_pos (by rw [hplace])]
    · rw [if_neg hplace, if_neg (by omega)]
  · rw [if_neg hsame, if_neg, hs.bits_eq]
    intro heq
    have hdiv := congrArg (· / Word.size) heq
    simp only [Nat.mul_add_div (show 0 < Word.size by decide), Nat.div_eq_of_lt hp,
      Nat.div_eq_of_lt hp', Nat.add_zero] at hdiv
    exact hsame hdiv

/-! ## At the end -/

/-- The claim that the bits of `s` come to be what an operation on lists makes of them; they stay as
they are when there is a lack of memory. -/
def follows (m : Multiset (Asset α)) (s : BitSequence) (act : ListAct Bool β) :
    Post (BitSequence × World σ α) β :=
  soundly m (refining bits (act s.bits) (· = s.bits))

/-- The same of an operation that needs no memory. -/
def mirrors (m : Multiset (Asset α)) (s : BitSequence) (act : ListAct Bool β) :
    Post (BitSequence × World σ α) β :=
  soundly m (refining bits (act s.bits) fun _ => False)

/-- What is done as on the list follows it. -/
theorem follows_done {act : ListAct Bool β} {b : β} {ys : List Bool} {u : BitSequence × World σ α}
    {left : List Bool → Prop} (hact : act s.bits = .done b ys) (hu : Sound m u)
    (hbits : u.1.bits = ys) : (soundly m (refining bits (act s.bits) left)).done b u :=
  ⟨hu, hact.trans (congrArg _ hbits.symm)⟩

/-- What is refused as on the list follows it. -/
theorem follows_refused {act : ListAct Bool β} {e : SequenceError} {left : List Bool → Prop}
    (hact : act s.bits = .refused e s.bits) (hs : Sound m (s, w)) :
    (soundly m (refining bits (act s.bits) left)).refused e (s, w) :=
  ⟨hs, .inl hact⟩

/-- A lack of memory follows the list as long as the bits are still the same. -/
theorem follows_lack {act : ListAct Bool β} {e : SequenceError} {u : BitSequence × World σ α}
    (hact : (act s.bits).Accepted) (hu : Sound m u) (he : e.IsLack) (hbits : u.1.bits = s.bits) :
    (follows m s act).refused e u :=
  ⟨hu, .inr ⟨he, hact, hbits⟩⟩

/-- What faults as on the list follows it. -/
theorem follows_faulted {act : ListAct Bool β} {f : Fault} {ys : List Bool}
    {u : BitSequence × World σ α} (hact : act s.bits = .faulted f ys) (hu : Sound m u)
    (hbits : u.1.bits = ys) : (follows m s act).faulted f u :=
  ⟨hu, hact.trans (congrArg _ hbits.symm)⟩

/-- Bits that stay before `p`, are rewritten behind it, and come from `q` on behind these. -/
theorem Loose.bits_eq_splice {t : BitSequence} {p q : Nat} {ys : List Bool}
    (ht : Loose m capacity len f (t, w)) (hp : p ≤ s.len)
    (hlen : len = p + ys.length + (s.len - q)) (hfront : ∀ i < p, f i = bitAt s.words i)
    (hmiddle : ∀ i < ys.length, ys[i]? = some (f (p + i)))
    (hback : ∀ i, q ≤ i → i < s.len → f (p + ys.length + (i - q)) = bitAt s.words i) :
    t.bits = s.bits.take p ++ ys ++ s.bits.drop q := by
  obtain ⟨_, _, rfl, rfl⟩ := ht
  exact BitSequence.bits_eq_splice hp hlen hfront hmiddle hback

/-- There are no bits behind the length. -/
theorem take_len (s : BitSequence) : s.bits.take s.len = s.bits :=
  List.take_of_length_le (length_bits s).le

/-- There is nothing behind the length. -/
theorem drop_len (s : BitSequence) : s.bits.drop s.len = [] :=
  List.drop_eq_nil_of_le (length_bits s).le

/-- A bit is put into the first place past the end, where there is room. -/
theorem store_bit_meets (value : Bool) (hs : Sound m (s, w)) (hroom : s.len < s.capacity) :
    ((do let _ ← changeBit s.len (.replace value); setLen (s.len + 1) : BitAct σ α Unit)
      (s, w)).Meets (.returns fun _ u => Sound m u ∧ u.1.bits = s.bits ++ [value]) := by
  apply Act.bind_of_returns (changeBit_meets (.replace value) hs.loose hroom)
  intro _ u hu
  obtain ⟨t, w'⟩ := u
  apply (setLen_meets (s.len + 1) hu.2).of_returns
  intro _ u hu
  obtain ⟨t, w'⟩ := u
  refine ⟨hu.sound hroom fun i hi => ?_, ?_⟩
  · rw [if_neg (by omega)]
    exact hs.clear (Nat.le_of_succ_le hi)
  · have hsplice : t.bits = s.bits.take s.len ++ [value] ++ s.bits.drop s.len := by
      apply hu.bits_eq_splice (Nat.le_refl _)
      · rw [List.length_singleton, Nat.sub_self]
      · intro i hi
        exact if_neg (Nat.ne_of_lt hi)
      · intro i hi
        obtain rfl := Nat.lt_one_iff.mp hi
        exact (congrArg some (if_pos rfl)).symm
      · intro i hi hlt
        omega
    rwa [take_len, drop_len, List.append_nil] at hsplice

/-- One bit comes behind the others, unless memory is lacking for it. -/
theorem push_meets (value : Bool) (hs : Sound m (s, w)) :
    (push value (s, w)).Meets (follows m s (ListAct.append [value])) := by
  have hstore : ∀ t w', Sound m (t, w') → t.len = s.len → t.bits = s.bits → t.len < t.capacity →
      ((do let _ ← changeBit s.len (.replace value); setLen (s.len + 1) : BitAct σ α Unit)
        (t, w')).Meets (follows m s (ListAct.append [value])) := by
    intro t w' ht hlen hbits hroom
    rw [← hlen]
    apply (store_bit_meets value ht hroom).of_returns
    intro _ u hu
    exact follows_done rfl hu.1 (hu.2.trans (congrArg (· ++ [value]) hbits))
  simp only [push, Act.bind_meets, Act.held_meets, Act.ite_meets]
  constructor
  · intro _
    apply (reserveMore_meets 1 hs).imp _ _ (fun _ _ hu => hu.2.elim)
    · intro _ u hu
      obtain ⟨t, w'⟩ := u
      obtain ⟨ht, hsame, hlen, _, hroom⟩ := hu
      have hlt : t.len < t.capacity := hlen ▸ hroom
      exact Act.bind_meets.mp (hstore t w' ht hlen (bits_eq_of_same hlen fun i _ => hsame i) hlt)
    · intro e u hu
      obtain ⟨ht, hlack, hsame⟩ := hu
      exact follows_lack (Outcome.accepted_done _ _) ht hlack (congrArg bits hsame)
  · intro hfull
    have hroom : s.len < s.capacity := Nat.lt_of_le_of_ne hs.len_le hfull
    exact Act.bind_meets.mp (hstore s w hs rfl rfl hroom)

/-- The last bit leaves, if there is one. -/
theorem pop_meets (hs : Sound m (s, w)) : (pop (s, w)).Meets (mirrors m s ListAct.pop) := by
  simp only [pop, Act.bind_meets, Act.held_meets, Act.ite_meets, Act.pure_meets]
  have hlen : s.len ≤ s.capacity := hs.len_le
  constructor
  · intro hzero
    have hnil : s.bits = [] := List.length_eq_zero_iff.mp ((length_bits s).trans hzero)
    apply follows_done _ hs hnil
    rw [hnil]
    rfl
  · intro hpos
    have hlast : s.len - 1 < s.capacity := by omega
    apply (setLen_meets (s.len - 1) hs.loose).of_returns
    intro _ u hu
    obtain ⟨t, w'⟩ := u
    apply (changeBit_meets (.replace false) hu hlast).of_returns
    intro answer u hu
    obtain ⟨t, w'⟩ := u
    obtain ⟨rfl, hu⟩ := hu
    have hsplit : t.bits = s.bits.take (s.len - 1) := by
      have hsplice : t.bits = s.bits.take (s.len - 1) ++ [] ++ s.bits.drop s.len :=
        hu.bits_eq_splice (Nat.sub_le _ _) (by rw [List.length_nil, Nat.sub_self]; rfl)
          (fun i hi => if_neg (Nat.ne_of_lt hi)) (fun i hi => absurd hi (Nat.not_lt_zero i))
          (fun i hi hlt => absurd hlt (Nat.not_lt_of_le hi))
      rwa [drop_len, List.append_nil, List.append_nil] at hsplice
    have hanswer : s.bits.getLast? = some (bitAt s.words (s.len - 1)) := by
      rw [List.getLast?_eq_getElem?, length_bits, getElem?_bits (by omega)]
    refine follows_done (congrArg₂ _ hanswer ?_) (hu.sound (by omega) fun i hi => ?_) hsplit
    · rw [List.dropLast_eq_take, length_bits]
    · by_cases heq : i = s.len - 1
      · rw [if_pos heq]
        rfl
      · rw [if_neg heq]
        exact hs.clear (by omega)

/-- Bits behind `n` are cleared, as far as there are some. -/
theorem Loose.truncate_meets (n : Nat) (hs : Loose m capacity len f (s, w)) (hlen : len ≤ capacity) :
    (truncate n (s, w)).Meets (.returns fun _ u =>
      Loose m capacity (min n len) (overlaid f n len fun _ => false) u) := by
  obtain rfl : s.len = len := hs.len_eq
  simp only [truncate, Act.bind_meets, Act.held_meets, Act.ite_meets, Act.pure_meets]
  constructor
  · intro hshort
    have hsame : overlaid f n s.len (fun _ => false) = f :=
      funext fun i => overlaid_of_not_mem (by omega)
    rw [hsame, Nat.min_eq_right hshort]
    exact hs
  · intro hlong
    rw [Nat.min_eq_left (Nat.le_of_not_le hlong)]
    apply (fill_meets false n hs hlen).of_returns
    intro _ u hu
    exact setLen_meets n hu

/-- The first bits stay, and what was behind them is clear. -/
theorem truncate_meets (n : Nat) (hs : Sound m (s, w)) :
    (truncate n (s, w)).Meets (.returns fun _ u => Sound m u ∧ u.1.bits = s.bits.take n) := by
  have hlen : s.len ≤ s.capacity := hs.len_le
  apply (hs.loose.truncate_meets n hlen).of_returns
  intro _ u hu
  obtain ⟨t, w'⟩ := u
  refine ⟨hu.sound (by omega) fun i hi => ?_, ?_⟩
  · by_cases hin : n ≤ i ∧ i < s.len
    · exact overlaid_of_mem hin.1 hin.2
    · rw [overlaid_of_not_mem hin]
      exact hs.clear (by omega)
  · have hsplice : t.bits = s.bits.take (min n s.len) ++ [] ++ s.bits.drop s.len :=
      hu.bits_eq_splice (Nat.min_le_right _ _) (by rw [List.length_nil, Nat.sub_self]; rfl)
        (fun i hi => overlaid_of_not_mem (by omega)) (fun i hi => absurd hi (Nat.not_lt_zero i))
        (fun i hi hlt => absurd hlt (Nat.not_lt_of_le hi))
    rw [drop_len, List.append_nil, List.append_nil] at hsplice
    rw [hsplice, ← length_bits s, ← List.take_eq_take_min]

/-- Truncating is what it is on a list, and needs no memory. -/
theorem truncate_mirrors (n : Nat) (hs : Sound m (s, w)) :
    (truncate n (s, w)).Meets (mirrors m s (ListAct.truncate n)) :=
  (truncate_meets n hs).of_returns fun _ _ hu => follows_done rfl hu.1 hu.2

/-- No bits are left. -/
theorem clear_meets (hs : Sound m (s, w)) :
    (clear (s, w)).Meets (.returns fun _ u => Sound m u ∧ u.1.bits = []) :=
  truncate_meets 0 hs

/-- Clearing is what it is on a list, and needs no memory. -/
theorem clear_mirrors (hs : Sound m (s, w)) :
    (clear (s, w)).Meets (mirrors m s (ListAct.assign [])) :=
  (clear_meets hs).of_returns fun _ _ hu => follows_done rfl hu.1 hu.2

/-- The bits are cut off at a length or filled up to it, unless memory is lacking. -/
theorem resize_meets (n : Nat) (value : Bool) (hs : Sound m (s, w)) :
    (resize n value (s, w)).Meets (follows m s (ListAct.resize n value)) := by
  simp only [resize, Act.bind_meets, Act.held_meets, Act.ite_meets]
  constructor
  · intro hshort
    apply (truncate_meets n hs).of_returns
    intro _ u hu
    refine follows_done rfl hu.1 (hu.2.trans ?_)
    dsimp only
    rw [length_bits, Nat.sub_eq_zero_of_le hshort, List.replicate_zero, List.append_nil]
  · intro hlong
    apply (reserve_meets n hs).imp _ _ (fun _ _ hu => hu.2.elim)
    · intro _ u hu
      obtain ⟨t, w'⟩ := u
      obtain ⟨ht, hsame, hlen, _, hroom⟩ := hu
      dsimp only at hsame hlen hroom
      apply (fill_meets value s.len ht.loose hroom).of_returns
      intro _ u hu
      obtain ⟨t₁, w₁⟩ := u
      dsimp only
      apply (setLen_meets n hu).of_returns
      intro _ u hu
      obtain ⟨t₂, w₂⟩ := u
      refine follows_done rfl (hu.sound hroom fun i hi => ?_) ?_
      · rw [overlaid_of_not_mem (by omega)]
        exact ht.clear (by omega)
      · have hsplice : t₂.bits = s.bits.take s.len ++ List.replicate (n - s.len) value ++
            s.bits.drop s.len := by
          apply hu.bits_eq_splice (Nat.le_refl _)
          · rw [List.length_replicate]
            omega
          · intro i hi
            exact (overlaid_of_not_mem (by omega)).trans (hsame i)
          · intro i hi
            rw [List.length_replicate] at hi
            rw [List.getElem?_replicate, if_pos hi, overlaid_of_mem (by omega) (by omega)]
          · intro i hi hlt
            omega
        dsimp only
        rw [hsplice, take_len, drop_len, List.append_nil, length_bits,
          List.take_of_length_le (by rw [length_bits]; omega)]
    · intro e u hu
      exact follows_lack (Outcome.accepted_done _ _) hu.1 hu.2.1 (congrArg bits hu.2.2)

/-! ## By index -/

/-- A bit is looked up as on a list. -/
theorem get_meets (index : Nat) (hs : Sound m (s, w)) :
    (get index (s, w)).Meets (mirrors m s (ListAct.pick index)) := by
  have hroom := hs.len_le
  simp only [get, Act.bind_meets, Act.held_meets, Act.ofExcept_meets]
  constructor
  · intro _ hcheck
    have hindex := lt_of_checkIndex_eq_ok hcheck
    apply (bit_meets (Nat.lt_of_lt_of_le hindex hroom)).of_returns
    intro x u hu
    obtain ⟨rfl, rfl⟩ := hu
    exact follows_done (ListAct.pick_of_some (getElem?_bits hindex)) hs rfl
  · intro e he
    obtain ⟨hfar, rfl⟩ := checkIndex_eq_error he
    apply follows_refused _ hs
    rw [ListAct.pick_of_none (List.getElem?_eq_none (by rwa [length_bits])), length_bits]

/-- One bit is another one than in `s`. -/
theorem Loose.bits_eq_set {t : BitSequence} {index : Nat} {value : Bool}
    (ht : Loose m capacity s.len (fun i => if i = index then value else bitAt s.words i) (t, w)) :
    t.bits = s.bits.set index value := by
  have hlen : t.len = s.len := ht.len_eq
  apply bits_eq_of
  · rw [List.length_set, length_bits, hlen]
  · intro i hi
    rw [ht.bits_eq, List.getElem?_set, length_bits]
    dsimp only
    by_cases heq : index = i
    · rw [if_pos heq, if_pos (by omega), if_pos heq.symm]
    · rw [if_neg heq, if_neg (Ne.symm heq), getElem?_bits (by omega)]

/-- One bit within the length is another one. -/
theorem Sound.of_set {u : BitSequence × World σ α} {index : Nat} {value : Bool}
    (hs : Sound m (s, w)) (hindex : index < s.len) (hu : Loose m s.capacity s.len
      (fun i => if i = index then value else bitAt s.words i) u) : Sound m u := by
  apply hu.sound hs.len_le
  intro i hi
  rw [if_neg (by omega)]
  exact hs.clear hi

/-- A bit is set as on a list, and the answer is the one before. -/
theorem set_meets (index : Nat) (value : Bool) (hs : Sound m (s, w)) :
    (set index value (s, w)).Meets (mirrors m s (ListAct.setBit index value)) := by
  have hroom := hs.len_le
  simp only [set, Act.bind_meets, Act.held_meets, Act.ofExcept_meets]
  constructor
  · intro _ hcheck
    have hindex := lt_of_checkIndex_eq_ok hcheck
    apply (changeBit_meets (.replace value) hs.loose (Nat.lt_of_lt_of_le hindex hroom)).of_returns
    intro answer u hu
    obtain ⟨t, w'⟩ := u
    obtain ⟨rfl, hu⟩ := hu
    have hold := getElem?_bits hindex
    exact follows_done (Act.bind_of_done (ListAct.exchange_of_some hold value))
      (hs.of_set hindex hu) hu.bits_eq_set
  · intro e he
    obtain ⟨hfar, rfl⟩ := checkIndex_eq_error he
    have hnone : s.bits[index]? = none := List.getElem?_eq_none (by rwa [length_bits])
    apply follows_refused _ hs
    rw [ListAct.setBit, Act.bind_of_refused (ListAct.exchange_of_none hnone value), length_bits]

/-- Changes that are made to a bit one after the other each start from what the one before left. -/
theorem changeBits_meets {index : Nat} (changes : List BitChange)
    (hs : Loose m capacity len f (s, w)) (h : index < capacity) :
    (changes.mapM (changeBit index) (s, w)).Meets (.returns fun answers u =>
      answers = (BitChange.onBits changes (f index)).1 ∧ Loose m capacity len
        (fun i => if i = index then (BitChange.onBits changes (f index)).2 else f i) u) := by
  induction changes generalizing f s w with
  | nil =>
      have hsame : (fun i => if i = index then f index else f i) = f := by
        funext i
        by_cases heq : i = index
        · rw [if_pos heq, heq]
        · rw [if_neg heq]
      rw [List.mapM_nil, Act.pure_meets]
      refine ⟨rfl, ?_⟩
      rw [BitChange.onBits, hsame]
      exact hs
  | cons change rest ih =>
      simp only [List.mapM_cons, Act.bind_meets, Act.pure_meets]
      apply (changeBit_meets change hs h).of_returns
      intro answer u hu
      obtain ⟨t, w'⟩ := u
      obtain ⟨rfl, hu⟩ := hu
      apply (ih hu).of_returns
      intro answers u' hu'
      rw [if_pos rfl] at hu'
      obtain ⟨rfl, hu'⟩ := hu'
      refine ⟨rfl, ?_⟩
      have hsame : (fun i => if i = index then
            (BitChange.onBits rest (change.onBit (f index)).2).2
          else if i = index then (change.onBit (f index)).2 else f i)
          = fun i => if i = index then (BitChange.onBits (change :: rest) (f index)).2 else f i := by
        funext i
        by_cases heq : i = index
        · rw [if_pos heq, if_pos heq]
          rfl
        · rw [if_neg heq, if_neg heq, if_neg heq]
      rwa [← hsame]

/-- A bit is changed as on a list. -/
theorem change_meets (index : Nat) (changes : List BitChange) (hs : Sound m (s, w)) :
    (change index changes (s, w)).Meets (mirrors m s (ListAct.changeBit index changes)) := by
  have hroom := hs.len_le
  simp only [change, Act.bind_meets, Act.held_meets, Act.ofExcept_meets]
  constructor
  · intro _ hcheck
    have hindex := lt_of_checkIndex_eq_ok hcheck
    apply (changeBits_meets changes hs.loose (Nat.lt_of_lt_of_le hindex hroom)).of_returns
    intro answers u hu
    obtain ⟨t, w'⟩ := u
    obtain ⟨rfl, hu⟩ := hu
    have hold := getElem?_bits hindex
    exact follows_done (Act.bind_of_done (ListAct.pick_of_some hold)) (hs.of_set hindex hu)
      hu.bits_eq_set
  · intro e he
    obtain ⟨hfar, rfl⟩ := checkIndex_eq_error he
    have hnone : s.bits[index]? = none := List.getElem?_eq_none (by rwa [length_bits])
    apply follows_refused _ hs
    rw [ListAct.changeBit, Act.bind_of_refused (ListAct.pick_of_none hnone), length_bits]

end BitSequence

end Growable
