import UniAlloc.Boundary.Basic

/-!
# Adding to a range and summing over it

`marks` and `credits` are what a walk along a path adds to the marks and to the sums of
a tree when it adds `v` to every leaf it passes; `query` is what a walk collects. The
two paths from the ends of a range meet at a pair of siblings, and what they have
passed by then is the range.
-/

namespace Boundary

variable {N h i j J y : Nat} {p : Path} {α : Type*} [CommSemiring α] {v : α}

theorem Node.unique (node : Node N h i) (node' : Node N j i) : j = h := by
  obtain ⟨hlo, hhi⟩ := node'
  have := Nat.two_pow_pos j
  rw [Nat.add_mul, Nat.one_mul] at hhi
  exact node.height_eq hlo (by omega) (Nat.mul_div_cancel _ this)

theorem ite_add_ite_or {P Q R : Prop} [Decidable P] [Decidable Q] [Decidable R] (a : α)
    (hdisj : P → ¬Q) (h : R ↔ P ∨ Q) :
    ((if P then a else 0) + if Q then a else 0) = if R then a else 0 := by
  by_cases hP : P
  · rw [if_pos hP, if_neg (hdisj hP), if_pos (h.mpr (.inl hP)), add_zero]
  · rw [if_neg hP, zero_add]
    exact if_congr (by rw [h, or_iff_right hP]) rfl rfl

namespace Path

/-- The marks that are set when `v` is added to what is passed. -/
def marks (p : Path) (v : α) : Nat → Nat → α
  | 0 => 0
  | j + 1 => if p.Takes j then marks p v j + Pi.single (p.sibling j) v else marks p v j

/-- What is added to the sums, to those of the siblings that are passed and to those of the
nodes on the path. -/
def credits (p : Path) (v : α) : Nat → Nat → α
  | 0 => 0
  | j + 1 =>
      (if p.Takes j then credits p v j + Pi.single (p.sibling j) (v * 2 ^ j)
        else credits p v j) +
        Pi.single (p.node (j + 1)) (v * (p.covered (j + 1)).card)

/-- What is collected from the sums of the siblings that are passed and from the marks of the
nodes on the path. -/
def query (p : Path) (tag sum : Nat → α) : Nat → α
  | 0 => 0
  | j + 1 =>
      (if p.Takes j then query p tag sum j + sum (p.sibling j) else query p tag sum j) +
        tag (p.node (j + 1)) * (p.covered (j + 1)).card

theorem card_covered_succ (j : Nat) :
    (p.covered (j + 1)).card =
      if p.Takes j then (p.covered j).card + 2 ^ j else (p.covered j).card := by
  rw [covered]
  split
  · rw [Finset.card_union_of_disjoint (p.disjoint_sibling j), card_below]
  · rfl

theorem cast_card_covered_succ (p : Path) (j : Nat) :
    ((p.covered (j + 1)).card : α) =
      if p.Takes j then ((p.covered j).card : α) + 2 ^ j else ((p.covered j).card : α) := by
  rw [card_covered_succ]
  split
  · rw [Nat.cast_add, Nat.cast_pow, Nat.cast_ofNat]
  · rfl

theorem marks_succ (p : Path) (v : α) (j : Nat) :
    p.marks v (j + 1) = p.marks v j + if p.Takes j then Pi.single (p.sibling j) v else 0 := by
  rw [marks]
  split
  · rfl
  · rw [add_zero]

theorem credits_succ (p : Path) (v : α) (j : Nat) :
    p.credits v (j + 1) = p.credits v j +
      (if p.Takes j then Pi.single (p.sibling j) (v * 2 ^ j) else 0) +
        Pi.single (p.node (j + 1)) (v * (p.covered (j + 1)).card) := by
  rw [credits]
  split
  · rfl
  · rw [add_zero]

theorem query_succ (p : Path) (tag sum : Nat → α) (j : Nat) :
    p.query tag sum (j + 1) = p.query tag sum j +
      (if p.Takes j then sum (p.sibling j) else 0) +
        tag (p.node (j + 1)) * (p.covered (j + 1)).card := by
  rw [query]
  split
  · rfl
  · rw [add_zero]

/-- The marks add `v` to the leaves that are passed below the height. -/
theorem weight_marks (within : p.Within N J) (hlo : N ≤ y) (hhi : y < 2 * N) :
    weight (p.marks v J) h y = if y ∈ p.covered (min (h + 1) J) then v else 0 := by
  induction J with
  | zero => rw [marks, weight_zero, Nat.min_zero, covered, if_neg (Finset.notMem_empty y)]
  | succ J ih =>
      have ih := ih fun j hj => within j (by omega)
      rw [marks]
      obtain hle | hlt := Nat.lt_or_ge h J
      · rw [show min (h + 1) (J + 1) = min (h + 1) J by omega]
        split
        · next htakes =>
            rw [weight_add, ih, weight_single (within J (Nat.lt_succ_self J) htakes) v hlo hhi,
              if_neg (by omega : ¬(J ≤ h ∧ _)), add_zero]
        · exact ih
      · rw [show min (h + 1) J = J by omega] at ih
        rw [show min (h + 1) (J + 1) = J + 1 by omega, covered]
        split
        · next htakes =>
            rw [weight_add, ih, weight_single (within J (Nat.lt_succ_self J) htakes) v hlo hhi]
            apply ite_add_ite_or
            · intro hy hy'
              exact Finset.disjoint_left.mp (p.disjoint_sibling J) hy hy'.2
            · rw [Finset.mem_union, and_iff_right hlt]
        · exact ih

/-- What a node of the tree is credited with. -/
theorem credits_eq (within : p.Within N J) (node : Node N h i) :
    p.credits v J i =
      (if h < J ∧ p.Takes h ∧ i = p.sibling h then v * 2 ^ h else 0) +
        if h ≤ J ∧ i = p.node h then v * (p.covered h).card else 0 := by
  induction J with
  | zero =>
      simp only [credits, Nat.not_lt_zero, false_and, if_false, Nat.le_zero, zero_add]
      split
      · next hh => rw [hh.1, covered, Finset.card_empty, Nat.cast_zero, mul_zero]; rfl
      · rfl
  | succ J ih =>
      have ih := ih fun j hj => within j (by omega)
      have hsibling : (if p.Takes J then p.credits v J + Pi.single (p.sibling J) (v * 2 ^ J)
          else p.credits v J) i = p.credits v J i +
            if h = J ∧ p.Takes h ∧ i = p.sibling h then v * 2 ^ h else 0 := by
        split
        · next htakes =>
            rw [Pi.add_apply, Pi.single_apply]
            congr 1
            by_cases hi : i = p.sibling J
            · have := node.unique (hi ▸ within J (Nat.lt_succ_self J) htakes)
              subst this
              rw [if_pos hi, if_pos ⟨rfl, htakes, hi⟩]
            · rw [if_neg hi, if_neg]
              rintro ⟨rfl, -, hi'⟩
              exact hi hi'
        · next htakes =>
            rw [if_neg, add_zero]
            rintro ⟨rfl, htakes', -⟩
            exact htakes htakes'
      have hnode : (Pi.single (p.node (J + 1)) (v * (p.covered (J + 1)).card) : Nat → α) i =
          if h = J + 1 ∧ i = p.node h then v * (p.covered h).card else 0 := by
        rw [Pi.single_apply]
        by_cases hi : i = p.node (J + 1)
        · rw [if_pos hi]
          obtain hempty | ⟨y, hy⟩ := (p.covered (J + 1)).eq_empty_or_nonempty
          · rw [hempty, Finset.card_empty, Nat.cast_zero, mul_zero]
            split
            · next hh => rw [hh.1, hempty, Finset.card_empty, Nat.cast_zero, mul_zero]
            · rfl
          · obtain ⟨hlo, hhi⟩ := within.mem_leaves hy
            have := node.height_eq hlo hhi ((p.div_of_mem_covered hy).trans hi.symm)
            subst this
            rw [if_pos ⟨rfl, hi⟩]
        · rw [if_neg hi, if_neg]
          rintro ⟨rfl, hi'⟩
          exact hi hi'
      rw [credits, Pi.add_apply, hsibling, hnode, ih, add_assoc, add_add_add_comm]
      congr 1
      · apply ite_add_ite_or
        · rintro ⟨hlt, -⟩ ⟨rfl, -⟩
          exact lt_irrefl h hlt
        · rw [Nat.lt_succ_iff_lt_or_eq, or_and_right]
      · apply ite_add_ite_or
        · rintro ⟨hle, -⟩ ⟨rfl, -⟩
          omega
        · rw [Nat.le_succ_iff, or_and_right]

/-- Of the leaves below a node of the height, all that has been passed lies below the node on
the path. -/
theorem card_below_inter (p : Path) (h i : Nat) :
    (below h i ∩ p.covered h).card = if i = p.node h then (p.covered h).card else 0 := by
  split
  · next hi =>
      rw [Finset.inter_eq_right.mpr]
      intro y hy
      exact mem_below.mpr ((p.div_of_mem_covered hy).trans hi.symm)
  · next hi =>
      apply Finset.card_eq_zero.mpr
      apply Finset.disjoint_iff_inter_eq_empty.mp
      apply Finset.disjoint_left.mpr
      intro y hy hy'
      exact hi ((mem_below.mp hy).symm.trans (p.div_of_mem_covered hy'))

theorem card_below_inter_below (h i i' : Nat) :
    (below h i ∩ below h i').card = if i = i' then 2 ^ h else 0 := by
  split
  · next hi => rw [hi, Finset.inter_self, card_below]
  · next hi =>
      apply Finset.card_eq_zero.mpr
      apply Finset.disjoint_iff_inter_eq_empty.mp
      apply Finset.disjoint_left.mpr
      intro y hy hy'
      exact hi ((mem_below.mp hy).symm.trans (mem_below.mp hy'))

/-- With the next step the leaves below the sibling are passed. -/
theorem card_below_inter_succ (p : Path) (h i : Nat) :
    (below h i ∩ p.covered (h + 1)).card =
      (if p.Takes h ∧ i = p.sibling h then 2 ^ h else 0) +
        if i = p.node h then (p.covered h).card else 0 := by
  rw [covered]
  split
  · next htakes =>
      have hdisj : Disjoint (below h i ∩ p.covered h) (below h i ∩ below h (p.sibling h)) :=
        (p.disjoint_sibling h).mono Finset.inter_subset_right Finset.inter_subset_right
      rw [Finset.inter_union_distrib_left, Finset.card_union_of_disjoint hdisj, card_below_inter,
        card_below_inter_below, Nat.add_comm]
      simp only [htakes, true_and]
  · next htakes =>
      rw [card_below_inter]
      simp only [htakes, false_and, if_false, Nat.zero_add]

/-- On the heights that have been passed the credits are the sums of the marks. -/
theorem credits_sums (within : p.Within N J) (node : Node N h i) (hJ : h ≤ J) :
    p.credits v J i = ∑ y ∈ below h i, weight (p.marks v J) h y := by
  have hterm : ∀ y ∈ below h i, weight (p.marks v J) h y =
      if y ∈ p.covered (min (h + 1) J) then v else 0 := fun y hy =>
    weight_marks within (node.mem_leaves hy).1 (node.mem_leaves hy).2
  rw [credits_eq within node, Finset.sum_congr rfl hterm, Finset.sum_ite_mem, Finset.sum_const,
    nsmul_eq_mul, mul_comm _ v]
  obtain hlt | rfl := Nat.lt_or_eq_of_le hJ
  · rw [show min (h + 1) J = h + 1 by omega, card_below_inter_succ]
    simp only [hlt, hJ, true_and, Nat.cast_add, Nat.cast_ite, Nat.cast_pow, Nat.cast_ofNat,
      Nat.cast_zero, mul_add, mul_ite, mul_zero]
  · rw [show min (h + 1) h = h by omega, card_below_inter]
    simp only [lt_irrefl, false_and, if_false, zero_add, le_refl, true_and, Nat.cast_ite,
      Nat.cast_zero, mul_ite, mul_zero]

/-- There is no mark above the root. -/
theorem marks_zero (within : p.Within N J) (hN : 0 < N) : p.marks v J 0 = 0 := by
  induction J with
  | zero => rfl
  | succ J ih =>
      have ih := ih fun j hj => within j (by omega)
      rw [marks]
      split
      · next htakes =>
          have hne : p.sibling J ≠ 0 := by
            intro hzero
            obtain ⟨hlo, -⟩ := within J (Nat.lt_succ_self J) htakes
            rw [hzero, Nat.zero_mul] at hlo
            omega
          rw [Pi.add_apply, ih, Pi.single_eq_of_ne hne.symm, add_zero]
      · exact ih

/-- A path that passes no leaves adds nothing. -/
theorem marks_credits_of_empty (hempty : p.covered J = ∅) :
    p.marks v J = 0 ∧ p.credits v J = 0 := by
  induction J with
  | zero => exact ⟨rfl, rfl⟩
  | succ J ih =>
      have hcovered : p.covered J = ∅ :=
        Finset.subset_empty.mp (hempty ▸ p.covered_mono (Nat.le_succ J))
      have htakes : ¬p.Takes J := by
        intro htakes
        have hcard := p.card_covered_succ J
        rw [hempty, Finset.card_empty, if_pos htakes] at hcard
        have := Nat.two_pow_pos J
        omega
      obtain ⟨hmarks, hcredits⟩ := ih hcovered
      rw [marks, if_neg htakes, credits, if_neg htakes, hmarks, hcredits, hempty,
        Finset.card_empty, Nat.cast_zero, mul_zero, Pi.single_zero, add_zero]
      exact ⟨rfl, rfl⟩

/-- A walk collects the marks above all leaves that it passes. -/
theorem query_eq {tag sum : Nat → α} (within : p.Within N J) (sums : Sums N tag sum) :
    p.query tag sum J = ∑ y ∈ p.covered J, weight tag J y := by
  induction J with
  | zero => rw [query, covered, Finset.sum_empty]
  | succ J ih =>
      have ih := ih fun j hj => within j (by omega)
      have hmark : ∑ y ∈ p.covered (J + 1), tag (y / 2 ^ (J + 1)) =
          tag (p.node (J + 1)) * (p.covered (J + 1)).card := by
        rw [Finset.sum_congr rfl fun y hy => congrArg tag (p.div_of_mem_covered hy),
          Finset.sum_const, nsmul_eq_mul, mul_comm]
      simp only [weight_succ, Finset.sum_add_distrib]
      rw [query, hmark, ih, covered]
      congr 1
      split
      · next htakes =>
          rw [Finset.sum_union (p.disjoint_sibling J),
            sums J _ (within J (Nat.lt_succ_self J) htakes)]
      · rfl

end Path

/-- The path from the leaf before a range. -/
def left (l : Nat) : Path := ⟨l, 0⟩

/-- The path from the leaf behind a range. -/
def right (r : Nat) : Path := ⟨r, 1⟩

variable {l r a b : Nat}

/-- Two nodes that follow one another are siblings if the first is even. -/
theorem siblings_iff (h : a < b) : a ^^^ b ^^^ 1 = 0 ↔ a % 2 = 0 ∧ b = a + 1 := by
  rw [Nat.xor_assoc, Nat.xor_eq_zero_iff]
  obtain heven | hodd := Nat.even_or_odd b
  · rw [Nat.xor_one_of_even heven]
    obtain ⟨m, hm⟩ := heven
    omega
  · rw [Nat.xor_one_of_odd hodd]
    obtain ⟨m, hm⟩ := hodd
    omega

theorem lt_left (l j : Nat) : l < ((left l).node j + 1) * 2 ^ j := by
  have := Nat.lt_div_mul_add (a := l) (Nat.two_pow_pos j)
  rwa [Nat.add_mul, Nat.one_mul]

theorem right_le (r j : Nat) : (right r).node j * 2 ^ j ≤ r := Nat.div_mul_le_self r (2 ^ j)

/-- The paths have not met before height `J`. -/
def Apart (l r J : Nat) : Prop := ∀ j < J, (left l).node j ^^^ (right r).node j ^^^ 1 ≠ 0

theorem Apart.node_lt (apart : Apart l r J) (h : l < r) (hj : j ≤ J) :
    (left l).node j < (right r).node j := by
  induction j with
  | zero => rwa [Path.node_zero, Path.node_zero]
  | succ j ih =>
      have hlt := ih (by omega)
      have hne := mt (siblings_iff hlt).mpr (apart j (by omega))
      rw [Path.node_succ, Path.node_succ]
      omega

theorem covered_left (l j : Nat) :
    (left l).covered j = Finset.Ico (l + 1) (((left l).node j + 1) * 2 ^ j) := by
  induction j with
  | zero => simp [Path.covered, left]
  | succ j ih =>
      have hpow : ((left l).node (j + 1) + 1) * 2 ^ (j + 1) =
          (2 * ((left l).node j / 2) + 2) * 2 ^ j := by
        rw [Path.node_succ, Nat.pow_succ]
        ring
      rw [Path.covered, ih, hpow, below, Path.sibling]
      split
      · next htakes =>
          have heven : (left l).node j % 2 = 0 := htakes
          rw [Nat.xor_one_of_even (Nat.even_iff.mpr heven), Finset.Ico_union_Ico_eq_Ico]
          · congr 2
            omega
          · exact lt_left l j
          · exact Nat.mul_le_mul_right _ (Nat.le_succ _)
      · next htakes =>
          have hodd : (left l).node j % 2 ≠ 0 := htakes
          congr 2
          omega

theorem covered_right (r j : Nat) :
    (right r).covered j = Finset.Ico ((right r).node j * 2 ^ j) r := by
  induction j with
  | zero => simp [Path.covered, right]
  | succ j ih =>
      have hpow : (right r).node (j + 1) * 2 ^ (j + 1) = 2 * ((right r).node j / 2) * 2 ^ j := by
        rw [Path.node_succ, Nat.pow_succ]
        ring
      rw [Path.covered, ih, hpow, below, Path.sibling]
      split
      · next htakes =>
          have hodd : (right r).node j % 2 = 1 := htakes
          rw [Nat.xor_one_of_odd (Nat.odd_iff.mpr hodd), Nat.sub_add_cancel (by omega),
            Finset.union_comm, Finset.Ico_union_Ico_eq_Ico]
          · congr 2
            omega
          · exact Nat.mul_le_mul_right _ (Nat.sub_le _ _)
          · exact right_le r j
      · next htakes =>
          have heven : (right r).node j % 2 ≠ 1 := htakes
          congr 2
          omega

theorem Apart.within_left (apart : Apart l r J) (h : l < r) (hlo : N ≤ l + 1)
    (hhi : r ≤ 2 * N) : (left l).Within N J := by
  intro j hj htakes
  have heven : (left l).node j % 2 = 0 := htakes
  have hlt := apart.node_lt h hj.le
  have hne := mt (siblings_iff hlt).mpr (apart j hj)
  have hl := lt_left l j
  have hr := right_le r j
  have hstep : ((left l).node j + 1 + 1) * 2 ^ j ≤ (right r).node j * 2 ^ j :=
    Nat.mul_le_mul_right _ (by omega)
  rw [Path.sibling, Nat.xor_one_of_even (Nat.even_iff.mpr heven)]
  exact ⟨hlo.trans hl, hstep.trans (hr.trans hhi)⟩

theorem Apart.within_right (apart : Apart l r J) (h : l < r) (hlo : N ≤ l + 1)
    (hhi : r ≤ 2 * N) : (right r).Within N J := by
  intro j hj htakes
  have hodd : (right r).node j % 2 = 1 := htakes
  have hlt := apart.node_lt h hj.le
  have hne := mt (siblings_iff hlt).mpr (apart j hj)
  have hl := lt_left l j
  have hr := right_le r j
  have hstep : ((left l).node j + 1) * 2 ^ j ≤ ((right r).node j - 1) * 2 ^ j :=
    Nat.mul_le_mul_right _ (by omega)
  rw [Path.sibling, Nat.xor_one_of_odd (Nat.odd_iff.mpr hodd)]
  refine ⟨hlo.trans (hl.trans_le hstep), ?_⟩
  rw [Nat.sub_add_cancel (by omega)]
  exact hr.trans hhi

/-- At height `J` the paths meet for the first time. -/
structure Meets (l r J : Nat) : Prop where
  apart : Apart l r J
  even : (left l).node J % 2 = 0
  meet : (right r).node J = (left l).node J + 1

theorem Meets.xor_eq_zero (meets : Meets l r J) :
    (left l).node J ^^^ (right r).node J ^^^ 1 = 0 := by
  have := meets.meet
  exact (siblings_iff (by omega)).mpr ⟨meets.even, meets.meet⟩

theorem exists_meets {m : Nat} (h : l < r) (hr : r < 2 ^ m) : ∃ J < m, Meets l r J := by
  have hex : ∃ j, j < m ∧ (left l).node j ^^^ (right r).node j ^^^ 1 = 0 := by
    by_contra hall
    have apart : Apart l r m := fun j hj hzero => hall ⟨j, hj, hzero⟩
    have hlt := apart.node_lt h (Nat.le_refl m)
    rw [Path.node, Path.node, right, Nat.div_eq_of_lt hr] at hlt
    exact Nat.not_lt_zero _ hlt
  obtain ⟨hm, hzero⟩ := Nat.find_spec hex
  have apart : Apart l r (Nat.find hex) := by
    intro j hj hzero
    exact Nat.find_min hex hj ⟨hj.trans hm, hzero⟩
  obtain ⟨even, meet⟩ := (siblings_iff (apart.node_lt h (Nat.le_refl _))).mp hzero
  exact ⟨Nat.find hex, hm, apart, even, meet⟩

/-- When the paths meet, what they have passed is the range. -/
theorem sum_covered {M : Type*} [AddCommMonoid M] (f : Nat → M)
    (meet : (right r).node J = (left l).node J + 1) :
    (∑ y ∈ (left l).covered J, f y) + ∑ y ∈ (right r).covered J, f y =
      ∑ y ∈ Finset.Ico (l + 1) r, f y := by
  rw [covered_left, covered_right, ← meet]
  apply Finset.sum_Ico_consecutive
  · rw [meet]
    exact lt_left l J
  · exact right_le r J

theorem Meets.mem_range (meets : Meets l r J) :
    l < y ∧ y < r ↔ y ∈ (left l).covered J ∨ y ∈ (right r).covered J := by
  have hl := lt_left l J
  have hr := right_le r J
  rw [covered_left, covered_right, Finset.mem_Ico, Finset.mem_Ico]
  rw [meets.meet] at hr ⊢
  omega

theorem Meets.not_mem_right (meets : Meets l r J) (hy : y ∈ (left l).covered J) :
    y ∉ (right r).covered J := by
  rw [covered_left, Finset.mem_Ico] at hy
  rw [covered_right, Finset.mem_Ico, meets.meet]
  omega

variable {k : Nat}

theorem Node.height_le (node : Node (2 ^ k) h i) : h ≤ k := by
  obtain ⟨hlo, hhi⟩ := node
  rw [Nat.add_mul, Nat.one_mul] at hhi
  exact (Nat.pow_le_pow_iff_right Nat.one_lt_two).mp (by omega)

/-- Above the root there are no marks. -/
theorem weight_of_le {tag : Nat → α} (hzero : tag 0 = 0) (hy : y < 2 * 2 ^ k) (hJ : k ≤ J) :
    weight tag J y = weight tag k y := by
  induction hJ with
  | refl => rfl
  | @step J hJ ih =>
      have hlt : y < 2 ^ (J + 1) := by
        apply hy.trans_le
        rw [← Nat.pow_succ']
        exact Nat.pow_le_pow_right (by omega) (Nat.succ_le_succ hJ)
      rw [weight_succ, ih, Nat.div_eq_of_lt hlt, hzero, add_zero]

/-- The paths of a range that reaches to one end of the tree meet above the root. -/
theorem node_eq_zero (hends : l + 1 = 2 ^ k ∨ r = 2 * 2 ^ k)
    (heven : (left l).node J % 2 = 0) (meet : (right r).node J = (left l).node J + 1) :
    (left l).node J = 0 := by
  have hlt := lt_left l J
  have hle : (left l).node J * 2 ^ J ≤ l := Nat.div_mul_le_self l (2 ^ J)
  obtain hl | rfl := hends
  · obtain hJ | hJ := Nat.lt_or_ge J k
    · have hdvd : l + 1 = 2 * 2 ^ (k - J - 1) * 2 ^ J := by
        rw [hl, ← Nat.pow_succ', ← Nat.pow_add]
        congr 1
        omega
      have hlow : 2 * 2 ^ (k - J - 1) ≤ (left l).node J + 1 :=
        Nat.le_of_mul_le_mul_right (by omega) (Nat.two_pow_pos J)
      have hhigh : (left l).node J < 2 * 2 ^ (k - J - 1) :=
        Nat.lt_of_mul_lt_mul_right (a := 2 ^ J) (by omega)
      omega
    · have := Nat.pow_le_pow_right (n := 2) (by omega) hJ
      by_contra hne
      have := Nat.le_mul_of_pos_left (2 ^ J) (Nat.pos_of_ne_zero hne)
      omega
  · have hpow : (right (2 * 2 ^ k)).node J = 2 ^ (k + 1) / 2 ^ J := by
      rw [Path.node, right, Nat.pow_succ']
    obtain hJ | hJ := Nat.lt_or_ge k J
    · have hle : 2 ^ (k + 1) / 2 ^ J ≤ 1 :=
        Nat.div_le_of_le_mul (by
          rw [Nat.mul_one]
          exact Nat.pow_le_pow_right (by omega) hJ)
      omega
    · rw [Nat.pow_div (by omega) (by omega), show k + 1 - J = k - J + 1 by omega,
        Nat.pow_succ'] at hpow
      omega

theorem le_of_node_eq_zero (hl : 2 ^ k ≤ l + 1) (hzero : (left l).node J = 0) : k ≤ J := by
  have hlt := lt_left l J
  rw [hzero, Nat.zero_add, Nat.one_mul] at hlt
  apply (Nat.pow_le_pow_iff_right Nat.one_lt_two).mp
  omega

end Boundary
