import Growable.Proofs.BitSequence.Order
import Growable.Proofs.Program.Custody

/-!
# Comparing bit sequences from programs

Two bit sequences may come from different programs, with other element code, other allocators, another
history and another capacity: whether they are equal, how they are ordered and what they feed to a hash
depends on their bits alone.
-/

namespace Growable

/-- Some program leaves the bit sequence in one of its registers. -/
def BitSequence.Reachable (s : BitSequence) : Prop :=
  ∃ (σ α : Type) (E : Element σ α) (registers : Nat) (accounts : List Account) (code : σ)
    (commands : List (Command σ α)) (a : Nat),
    (Workspace.runAll E (.initial registers accounts code) commands).2.bitSequence? a = some s

/-- A bit sequence that can be reached represents a list of bits. -/
theorem BitSequence.Reachable.valid {s : BitSequence} (h : s.Reachable) : s.Valid := by
  obtain ⟨σ, α, E, registers, accounts, code, commands, a, ha⟩ := h
  have hsound := Workspace.runAll_sound (E := E) commands
    (Workspace.sound_initial registers accounts code)
  exact hsound.valid a _ (Workspace.container?_of_bitSequence? ha)

/-- **Comparison.**  Bit sequences are equal just when their bits are, and just when neither comes before
the other.  Their order is the lexicographic one of their bits, in which a cleared bit comes before a set
one and a proper prefix before its extensions; it is total, and any two of them are comparable.  Equal
ones feed the same data to a hash. -/
theorem BitSequence.comparison_lawful {s t u : BitSequence} (hs : s.Reachable) (ht : t.Reachable)
    (hu : u.Reachable) :
    (s.beq t = true ↔ s.bits = t.bits) ∧ (s.bits = t.bits ↔ s.cmp t = .eq) ∧
      (s.cmp t = .lt ↔ Precedes s.bits t.bits) ∧ (s.cmp t = .gt ↔ Precedes t.bits s.bits) ∧
      t.cmp s = (s.cmp t).swap ∧
      ((s.cmp t).isLE = true → (t.cmp u).isLE = true → (s.cmp u).isLE = true) ∧
      s.partialCmp t = some (s.cmp t) ∧ (s.bits = t.bits → s.hashData = t.hashData) := by
  have hst := cmp_eq_lexicographic hs.valid ht.valid
  have hts := cmp_eq_lexicographic ht.valid hs.valid
  have htu := cmp_eq_lexicographic ht.valid hu.valid
  have hsu := cmp_eq_lexicographic hs.valid hu.valid
  have hswap : t.cmp s = (s.cmp t).swap := by
    rw [hst, hts, lexicographic_eq_compareLex, lexicographic_eq_compareLex]
    exact Std.OrientedCmp.eq_swap
  refine ⟨beq_iff hs.valid ht.valid, ?_, ?_, ?_, hswap, ?_, rfl, hashData_eq hs.valid ht.valid⟩
  · rw [hst, lexicographic_eq_compareLex]
    exact Std.LawfulEqCmp.compare_eq_iff_eq.symm
  · rw [hst, lexicographic_lt_iff]
  · rw [← lexicographic_lt_iff, ← hts, hswap]
    cases s.cmp t <;> simp
  · rw [hst, htu, hsu]
    simp only [lexicographic_eq_compareLex]
    exact Std.TransCmp.isLE_trans

/-- The same bit in two capacities, and an extension of it. -/
theorem BitSequence.comparison_lawful_pushed :
    let s : BitSequence := ⟨some 0, #[1], 1, .of ⟨0, .shared⟩⟩
    let t : BitSequence := ⟨some 0, #[1, 0], 1, .of ⟨0, .shared⟩⟩
    let u : BitSequence := ⟨some 0, #[1], 2, .of ⟨0, .shared⟩⟩
    s.cmp t = .eq ∧ s.cmp u = .lt ∧ s.hashData = t.hashData := by
  intro s t u
  have hs : s.Reachable := ⟨_, _, Element.plain ⟨1, 1⟩ (), 1, [.unlimited], (),
    [.createBits 0 .empty (.of ⟨0, .shared⟩), .editBits 0 (.push true)], 0, rfl⟩
  have ht : t.Reachable := ⟨_, _, Element.plain ⟨1, 1⟩ (), 1, [.unlimited], (),
    [.createBits 0 (.withCapacity 65) (.of ⟨0, .shared⟩), .editBits 0 (.push true)], 0, rfl⟩
  have hu : u.Reachable := ⟨_, _, Element.plain ⟨1, 1⟩ (), 1, [.unlimited], (),
    [.createBits 0 (.ofList [true, false]) (.of ⟨0, .shared⟩)], 0, rfl⟩
  obtain ⟨-, heq, -, -, -, -, -, hhash⟩ := comparison_lawful hs ht hu
  obtain ⟨-, -, hlt, -⟩ := comparison_lawful hs hu ht
  have hsame : s.bits = t.bits := by decide
  exact ⟨heq.mp hsame, hlt.mpr (.inl ⟨false, [], by decide⟩), hhash hsame⟩

end Growable
