import Mathlib.Algebra.BigOperators.Intervals
import Mathlib.Data.Nat.Count

/-!
# Ranks

The rank of a position is the number of positions below it at which a predicate holds. A
position at which the predicate holds is given by its rank, and a comparison of ranks is one
of positions.
-/

namespace Rank

variable {p q : Nat → Prop} [DecidablePred p] [DecidablePred q] {m n w k : Nat}

theorem count_congr (h : ∀ i < n, p i ↔ q i) : Nat.count p n = Nat.count q n := by
  apply Nat.le_antisymm
  · exact Nat.count_mono_left fun i hi => (h i hi).mp
  · exact Nat.count_mono_left fun i hi => (h i hi).mpr

/-- The positions are counted block by block. -/
theorem count_mul (n w : Nat) :
    Nat.count p (n * w) = ∑ b ∈ Finset.range n, Nat.count (fun i => p (b * w + i)) w := by
  induction n with
  | zero => rw [Nat.zero_mul, Nat.count_zero, Finset.range_zero, Finset.sum_empty]
  | succ n ih => rw [Nat.add_mul, Nat.one_mul, Nat.count_add, ih, Finset.sum_range_succ]

theorem count_le_iff (hm : p m) : Nat.count p n ≤ Nat.count p m ↔ n ≤ m := by
  constructor
  · intro hle
    by_contra hlt
    have := Nat.count_strict_mono hm (show m < n by omega)
    omega
  · exact fun h => Nat.count_monotone p h

/-- Every rank below the number of positions is the rank of one of them. -/
theorem exists_count_eq (h : k < Nat.count p n) : ∃ m < n, p m ∧ Nat.count p m = k := by
  induction n with
  | zero => exact absurd h (Nat.not_lt_zero k)
  | succ n ih =>
      obtain hlt | hge := Nat.lt_or_ge k (Nat.count p n)
      · obtain ⟨m, hm, hset, hcount⟩ := ih hlt
        exact ⟨m, by omega, hset, hcount⟩
      · rw [Nat.count_succ] at h
        split at h
        · next hset => exact ⟨n, Nat.lt_succ_self n, hset, by omega⟩
        · omega

theorem count_lt (m n : Nat) : Nat.count (· < m) n = min n m := by
  induction n with
  | zero => rw [Nat.count_zero, Nat.zero_min]
  | succ n ih =>
      rw [Nat.count_succ, ih]
      split <;> omega

end Rank
