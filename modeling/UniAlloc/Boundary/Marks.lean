import UniAlloc.Boundary.Range

/-!
# The marks above a leaf

A leaf that a path has passed lies below one sibling that was passed. Of the nodes above
the leaf only that sibling is marked, and up to it the credits are the sums of the marks.
-/

namespace Boundary

variable {N h i j J m y z : Nat} {p q : Path} {α : Type*} [CommSemiring α] {v : α}

theorem below_subset (hy : y ∈ below h i) (hj : j ≤ h) : below j (y / 2 ^ j) ⊆ below h i := by
  intro z hz
  have hpow : 2 ^ j * 2 ^ (h - j) = 2 ^ h := by
    rw [← Nat.pow_add, Nat.add_sub_cancel' hj]
  rw [mem_below] at hy hz ⊢
  rw [← hpow, ← Nat.div_div_eq_div_mul, hz, Nat.div_div_eq_div_mul, hpow, hy]

/-- Between a leaf and a node above it there are nodes of the tree. -/
theorem Node.div (node : Node N h i) (hy : y ∈ below h i) (hj : j ≤ h) :
    Node N j (y / 2 ^ j) := by
  have hpow := Nat.two_pow_pos j
  have hfirst : y / 2 ^ j * 2 ^ j ∈ below j (y / 2 ^ j) := by
    rw [mem_below, Nat.mul_div_cancel _ hpow]
  have hlast : (y / 2 ^ j + 1) * 2 ^ j - 1 ∈ below j (y / 2 ^ j) := by
    rw [below, Finset.mem_Ico, Nat.add_mul, Nat.one_mul]
    omega
  have hlo := (node.mem_leaves (below_subset hy hj hfirst)).1
  have hhi := (node.mem_leaves (below_subset hy hj hlast)).2
  exact ⟨hlo, by omega⟩

namespace Path

/-- The leaves below a sibling are passed with it. -/
theorem mem_covered_iff (htakes : p.Takes h) (hy : y ∈ below h (p.sibling h)) :
    y ∈ p.covered m ↔ h < m := by
  constructor
  · intro hm
    by_contra hle
    exact Finset.disjoint_left.mp (p.disjoint_sibling h) (p.covered_mono (by omega) hm) hy
  · intro hlt
    apply p.covered_mono hlt
    rw [covered, if_pos htakes]
    exact Finset.mem_union_right _ hy

/-- What has been passed lies below a sibling. -/
theorem exists_taken (hy : y ∈ p.covered J) : ∃ h < J, p.Takes h ∧ y ∈ below h (p.sibling h) := by
  induction J with
  | zero => exact absurd hy (Finset.notMem_empty y)
  | succ J ih =>
      rw [covered] at hy
      split at hy
      · next htakes =>
          obtain hy | hy := Finset.mem_union.mp hy
          · obtain ⟨h, hlt, hh⟩ := ih hy
            exact ⟨h, by omega, hh⟩
          · exact ⟨J, Nat.lt_succ_self J, htakes, hy⟩
      · obtain ⟨h, hlt, hh⟩ := ih hy
        exact ⟨h, by omega, hh⟩

/-- Above a leaf the sibling it lies below is marked. -/
theorem marks_above (within : p.Within N J) (hlo : N ≤ y) (hhi : y < 2 * N) (j : Nat) :
    p.marks v J (y / 2 ^ j) =
      if j < J ∧ p.Takes j ∧ y ∈ below j (p.sibling j) then v else 0 := by
  induction J with
  | zero => rw [marks, if_neg (by omega : ¬(j < 0 ∧ _))]; rfl
  | succ J ih =>
      have ih := ih fun i hi => within i (by omega)
      have hterm : (if p.Takes J then Pi.single (p.sibling J) v else 0 : Nat → α) (y / 2 ^ j) =
          if j = J ∧ p.Takes j ∧ y ∈ below j (p.sibling j) then v else 0 := by
        split
        · next htakes =>
            rw [Pi.single_apply]
            by_cases hj : y / 2 ^ j = p.sibling J
            · obtain rfl := (within J (Nat.lt_succ_self J) htakes).height_eq hlo hhi hj
              rw [if_pos hj, if_pos ⟨rfl, htakes, mem_below.mpr hj⟩]
            · rw [if_neg hj, if_neg]
              rintro ⟨rfl, -, hy⟩
              exact hj (mem_below.mp hy)
        · next htakes =>
            rw [if_neg]
            · rfl
            · rintro ⟨rfl, htakes', -⟩
              exact htakes htakes'
      rw [marks_succ, Pi.add_apply, ih, hterm]
      apply ite_add_ite_or
      · rintro ⟨hlt, -⟩ ⟨rfl, -⟩
        exact lt_irrefl j hlt
      · rw [Nat.lt_succ_iff_lt_or_eq, or_and_right]

theorem marks_of_taken (within : p.Within N J) (hh : h < J) (htakes : p.Takes h)
    (hy : y ∈ below h (p.sibling h)) (j : Nat) :
    p.marks v J (y / 2 ^ j) = if j = h then v else 0 := by
  obtain ⟨hlo, hhi⟩ := (within h hh htakes).mem_leaves hy
  rw [marks_above within hlo hhi]
  apply if_congr _ rfl rfl
  constructor
  · rintro ⟨-, htakes', hy'⟩
    have hle := (mem_covered_iff htakes hy).mp ((mem_covered_iff htakes' hy').mpr
      (Nat.lt_succ_self j))
    have hge := (mem_covered_iff htakes' hy').mp ((mem_covered_iff htakes hy).mpr
      (Nat.lt_succ_self h))
    omega
  · rintro rfl
    exact ⟨hh, htakes, hy⟩

theorem marks_of_notMem (within : p.Within N J) (hlo : N ≤ y) (hhi : y < 2 * N)
    (hy : y ∉ p.covered J) (j : Nat) : p.marks v J (y / 2 ^ j) = 0 := by
  rw [marks_above within hlo hhi, if_neg]
  rintro ⟨hj, htakes, hy'⟩
  exact hy ((mem_covered_iff htakes hy').mpr hj)

/-- Up to a sibling that is passed, the sums are those of the marks. -/
theorem credits_of_taken (within : p.Within N J) (hh : h < J) (htakes : p.Takes h)
    (hy : y ∈ below h (p.sibling h)) (hj : j ≤ h) (node : Node N j (y / 2 ^ j)) :
    p.credits v J (y / 2 ^ j) = if j = h then v * 2 ^ h else 0 := by
  have hterm : ∀ z ∈ below j (y / 2 ^ j), weight (p.marks v J) j z = if j = h then v else 0 := by
    intro z hz
    rw [weight_marks within (node.mem_leaves hz).1 (node.mem_leaves hz).2]
    apply if_congr _ rfl rfl
    rw [mem_covered_iff htakes (below_subset hy hj hz)]
    omega
  rw [credits_sums within node (hj.trans hh.le), Finset.sum_congr rfl hterm, Finset.sum_const,
    card_below, nsmul_eq_mul, mul_comm]
  split
  · next hjh => rw [hjh, Nat.cast_pow, Nat.cast_ofNat]
  · rw [zero_mul]

theorem credits_of_disjoint (within : p.Within N J) (node : Node N j i) (hj : j ≤ J)
    (hdisj : Disjoint (below j i) (p.covered J)) : p.credits v J i = 0 := by
  rw [credits_sums within node hj]
  apply Finset.sum_eq_zero
  intro z hz
  rw [weight_marks within (node.mem_leaves hz).1 (node.mem_leaves hz).2, if_neg]
  intro hz'
  exact Finset.disjoint_left.mp hdisj hz (p.covered_mono (Nat.min_le_right _ _) hz')

end Path

end Boundary
