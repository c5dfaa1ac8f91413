import UniAlloc.SizeClass.Rounding

/-!
# The size classes of the build with a fixed heap

The class of a request is found from the trailing zeros of its size rounded up to a
multiple of eight. This is the right class for powers of two only.
-/

namespace UniAlloc

open Slab

namespace SmallSizeClass

/-- The request rounded up to a multiple of eight, as `get_size_class` computes it. -/
def finalSize (req : Nat) : Nat := req + 7 &&& (2 ^ 64 - 8)

theorem finalSize_eq {req : Nat} (h : req < 2 ^ 63) : finalSize req = 8 * ((req + 7) / 8) := by
  have := and_clear_low (n := req + 7) (k := 3) (by omega) (by omega)
  rw [finalSize, Nat.mul_comm]
  exact this

/-- The class of a multiple of eight, and what a chunk of it holds. -/
theorem class_spec : ∀ m < 257, 0 < m →
    2 < trailingZeros (8 * m) ∧ trailingZeros (8 * m) - 2 < TOTAL_SIZE_CLASS ∧
      (isPowerOfTwo (8 * m) = true ∧ getRoundedSizeByIdx (trailingZeros (8 * m) - 2) = 8 * m ∨
        isPowerOfTwo (8 * m) = false ∧
          getRoundedSizeByIdx (trailingZeros (8 * m) - 2) + 8 ≤ 8 * m) := by
  decide +kernel

end SmallSizeClass

open SmallSizeClass (finalSize finalSize_eq class_spec)

theorem SmallSizeClass.classes_sound : ∀ idx < SmallSizeClass.TOTAL_SIZE_CLASS, 0 < idx →
    0 < SmallSizeClass.getRoundedSizeByIdx idx ∧
      SmallSizeClass.getRoundedSizeByIdx idx ≤
        PAGE_SIZE * SmallSizeClass.getNumPagesByIdx idx := by
  decide

theorem smallSizeClass_sound : smallSizeClass.Sound where
  size_pos idx hpos hlt := (SmallSizeClass.classes_sound idx hlt hpos).1
  size_le idx hpos hlt := (SmallSizeClass.classes_sound idx hlt hpos).2
  pages_le _ := (by decide : 1 ≤ 4097)

/-- Requests of no bytes have no class. -/
theorem smallSizeClass_zero (idx : Nat) : ¬smallSizeClass.Rounds 0 idx := by
  intro h
  have hclass : smallSizeClass.getSizeClass 0 = .base 62 := by decide
  have heq : SizeClass.base 62 = .base idx := hclass.symm.trans h.class_eq
  have hlt : idx < 10 := h.lt
  rw [SizeClass.base.injEq] at heq
  omega

/-- A request gets a class whose chunks hold it exactly when its rounded size is a power of two
and small. -/
theorem smallSizeClass_rounds_iff {size : Nat} (h : size < 2 ^ 63) :
    (∃ idx, smallSizeClass.Rounds size idx) ↔
      finalSize size ≤ SmallSizeClass.MAX_SIZE ∧ isPowerOfTwo (finalSize size) = true := by
  have hfinal := finalSize_eq h
  have hclass : smallSizeClass.getSizeClass size =
      if finalSize size ≤ SmallSizeClass.MAX_SIZE then
        .base (trailingZeros (finalSize size) - 2)
      else .large size := rfl
  have hmax : SmallSizeClass.MAX_SIZE = 2048 := rfl
  by_cases hzero : size = 0
  · subst hzero
    refine iff_of_false ?_ fun h => absurd h.2 (by decide)
    rintro ⟨idx, hidx⟩
    exact smallSizeClass_zero idx hidx
  by_cases hsmall : finalSize size ≤ SmallSizeClass.MAX_SIZE
  · rw [if_pos hsmall] at hclass
    obtain ⟨hpos, hlt, hround⟩ := class_spec ((size + 7) / 8) (by omega) (by omega)
    rw [← hfinal] at hpos hlt hround
    obtain ⟨hpow, hsize⟩ | ⟨hpow, hsize⟩ := hround
    · refine iff_of_true ⟨_, hclass, by omega, hlt, ?_⟩ ⟨hsmall, hpow⟩
      exact (show size ≤ finalSize size by omega).trans hsize.ge
    · refine iff_of_false ?_ fun h => absurd (hpow.symm.trans h.2) (by decide)
      rintro ⟨idx, hidx⟩
      have heq := hclass.symm.trans hidx.class_eq
      rw [SizeClass.base.injEq] at heq
      have hle : size ≤ SmallSizeClass.getRoundedSizeByIdx idx := hidx.size_le
      rw [← heq] at hle
      omega
  · rw [if_neg hsmall] at hclass
    refine iff_of_false ?_ fun h => hsmall h.1
    rintro ⟨idx, hidx⟩
    exact SizeClass.noConfusion (hclass.symm.trans hidx.class_eq)

end UniAlloc
