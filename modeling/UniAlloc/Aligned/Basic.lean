import Mathlib

/-!
# Aligned blocks

A block of order `k` covers `2 ^ k` units and begins at a multiple of its size. Two
such blocks that share a unit lie one inside the other, so the blocks below a given
one form a binary tree. `largest` computes, by recursion over this tree, the order of
the largest block that is disjoint from a set of taken blocks.
-/

namespace Aligned

structure Block where
  order : Nat
  pos : Nat
  deriving DecidableEq

namespace Block

/-- The units of a block. -/
def units (b : Block) : Set Nat := {u | u / 2 ^ b.order = b.pos}

/-- `a` lies in `b`. -/
def Within (a b : Block) : Prop := a.order ≤ b.order ∧ a.pos / 2 ^ (b.order - a.order) = b.pos

instance (a b : Block) : Decidable (a.Within b) := inferInstanceAs (Decidable (_ ∧ _))

/-- `a` and `b` have no unit in common. -/
def Apart (a b : Block) : Prop := Disjoint a.units b.units

variable {a b c : Block} {r i u : Nat}

theorem div_pow_div_pow {m n : Nat} (h : m ≤ n) (x : Nat) :
    x / 2 ^ m / 2 ^ (n - m) = x / 2 ^ n := by
  rw [Nat.div_div_eq_div_mul, ← Nat.pow_add, Nat.add_sub_cancel' h]

@[simp] theorem Within.refl (a : Block) : a.Within a := ⟨le_rfl, by simp⟩

theorem Within.trans (hab : a.Within b) (hbc : b.Within c) : a.Within c := by
  obtain ⟨hab, hpos⟩ := hab
  obtain ⟨hbc, hpos'⟩ := hbc
  refine ⟨hab.trans hbc, ?_⟩
  have := div_pow_div_pow (m := b.order - a.order) (n := c.order - a.order) (by omega) a.pos
  rw [show c.order - a.order - (b.order - a.order) = c.order - b.order by omega] at this
  rw [← this, hpos, hpos']

theorem Within.antisymm (hab : a.Within b) (hba : b.Within a) : a = b := by
  obtain ⟨ha, hpos⟩ := hab
  have horder := Nat.le_antisymm ha hba.1
  rw [horder, Nat.sub_self, Nat.pow_zero, Nat.div_one] at hpos
  cases a
  cases b
  simp_all

/-- The first unit of a block. -/
theorem start_mem (b : Block) : b.pos * 2 ^ b.order ∈ b.units :=
  Nat.mul_div_cancel _ (Nat.two_pow_pos _)

theorem Within.subset (h : a.Within b) : a.units ⊆ b.units := by
  intro u hu
  have hu : u / 2 ^ a.order = a.pos := hu
  exact (div_pow_div_pow h.1 u).symm.trans (hu ▸ h.2)

/-- Blocks with a unit in common are nested. -/
theorem within_or_within (ha : u ∈ a.units) (hb : u ∈ b.units) : a.Within b ∨ b.Within a := by
  have ha : u / 2 ^ a.order = a.pos := ha
  have hb : u / 2 ^ b.order = b.pos := hb
  obtain h | h := le_total a.order b.order
  · exact .inl ⟨h, by rw [← ha, div_pow_div_pow h, hb]⟩
  · exact .inr ⟨h, by rw [← hb, div_pow_div_pow h, ha]⟩

theorem apart_iff : a.Apart b ↔ ¬a.Within b ∧ ¬b.Within a := by
  rw [Apart, Set.disjoint_left]
  constructor
  · intro h
    exact ⟨fun hab => h a.start_mem (hab.subset a.start_mem),
      fun hba => h (hba.subset b.start_mem) b.start_mem⟩
  · rintro ⟨hab, hba⟩ u hu hu'
    exact (within_or_within hu hu').elim hab hba

theorem Apart.symm (h : a.Apart b) : b.Apart a := Disjoint.symm h

theorem Apart.mono (h : a.Apart b) (hc : c.Within a) : c.Apart b :=
  Disjoint.mono_left hc.subset h

theorem units_eq (b : Block) :
    b.units = Set.Ico (b.pos * 2 ^ b.order) ((b.pos + 1) * 2 ^ b.order) := by
  ext u
  rw [units, Set.mem_ofPred_eq, Set.mem_Ico, Nat.div_eq_iff (Nat.two_pow_pos _), Nat.add_mul,
    Nat.one_mul]
  have := Nat.two_pow_pos b.order
  omega

/-- Of two blocks that are apart one ends before the other begins. -/
theorem apart_iff_le : a.Apart b ↔
    (a.pos + 1) * 2 ^ a.order ≤ b.pos * 2 ^ b.order ∨
      (b.pos + 1) * 2 ^ b.order ≤ a.pos * 2 ^ a.order := by
  have ha := Nat.two_pow_pos a.order
  have hb := Nat.two_pow_pos b.order
  rw [Apart, units_eq, units_eq, Set.Ico_disjoint_Ico, min_le_iff, le_max_iff, le_max_iff,
    Nat.add_mul, Nat.add_mul]
  omega

/-- The block of order `r` that contains `b`. -/
def above (b : Block) (r : Nat) : Block := ⟨r, b.pos / 2 ^ (r - b.order)⟩

@[simp] theorem above_order (b : Block) (r : Nat) : (b.above r).order = r := rfl

@[simp] theorem above_self (b : Block) : b.above b.order = b := by simp [above]

theorem within_above (h : b.order ≤ r) : b.Within (b.above r) := ⟨h, rfl⟩

theorem Within.eq_above (h : b.Within c) : c = b.above c.order := by
  obtain ⟨-, hpos⟩ := h
  cases c
  simp_all [above]

/-- The block above of the next order, from the one of this order. -/
theorem above_succ (h : b.order ≤ r) : b.above (r + 1) = ⟨r + 1, (b.above r).pos / 2⟩ := by
  have := div_pow_div_pow (m := r - b.order) (n := r + 1 - b.order) (by omega) b.pos
  rw [show r + 1 - b.order - (r - b.order) = 1 by omega, Nat.pow_one] at this
  simp only [above, this]

/-- A block of order `0` contains only itself. -/
theorem within_zero_iff : a.Within ⟨0, i⟩ ↔ a = ⟨0, i⟩ := by
  constructor
  · rintro ⟨horder, hpos⟩
    cases a
    simp_all
  · rintro rfl
    exact Within.refl _

/-- What lies in a larger block is the block itself or lies in one of its halves. -/
theorem within_succ_iff : a.Within ⟨r + 1, i⟩ ↔
    a = ⟨r + 1, i⟩ ∨ a.Within ⟨r, 2 * i⟩ ∨ a.Within ⟨r, 2 * i + 1⟩ := by
  constructor
  · rintro ⟨horder, hpos⟩
    obtain h | h := Nat.le_succ_iff.mp horder
    · have := div_pow_div_pow (m := r - a.order) (n := r + 1 - a.order) (by omega) a.pos
      rw [show r + 1 - a.order - (r - a.order) = 1 by omega, Nat.pow_one, hpos] at this
      refine .inr ?_
      obtain h' | h' : a.pos / 2 ^ (r - a.order) = 2 * i ∨
          a.pos / 2 ^ (r - a.order) = 2 * i + 1 := by
        simp only at this
        omega
      · exact .inl ⟨h, h'⟩
      · exact .inr ⟨h, h'⟩
    · left
      cases a
      simp_all
  · rintro (rfl | h | h)
    · exact Within.refl _
    · exact h.trans ⟨Nat.le_succ r, by simp⟩
    · refine h.trans ⟨Nat.le_succ r, ?_⟩
      simp only [Nat.add_sub_cancel_left, Nat.pow_one]
      omega

end Block

variable {taken : Finset Block} {a b c : Block} {r i k : Nat}

/-- No unit of the block is taken. -/
def Free (taken : Finset Block) (b : Block) : Prop := ∀ c ∈ taken, b.Apart c

/-- The block lies in a larger one that is taken. -/
def Covered (taken : Finset Block) (b : Block) : Prop := ∃ c ∈ taken, b.Within c ∧ b ≠ c

instance (b : Block) : Decidable (Covered taken b) :=
  inferInstanceAs (Decidable (∃ c ∈ taken, b.Within c ∧ b ≠ c))

theorem Free.mono (h : Free taken b) (ha : a.Within b) : Free taken a :=
  fun c hc => (h c hc).mono ha

/-- The value of a node from the values of its halves, which have order `order - 1`. -/
def merge (order left right : Nat) : Nat :=
  if left = order ∧ right = order then order + 1 else max left right

/-- One more than the order of the largest free block inside the block of order `r` at `i`,
or `0` if there is none. -/
def largest (taken : Finset Block) : Nat → Nat → Nat
  | 0, i => if ⟨0, i⟩ ∈ taken then 0 else 1
  | r + 1, i =>
      if ⟨r + 1, i⟩ ∈ taken then 0
      else merge (r + 1) (largest taken r (2 * i)) (largest taken r (2 * i + 1))

theorem merge_le {order left right : Nat} (hl : left ≤ order) (hr : right ≤ order) :
    merge order left right ≤ order + 1 := by
  rw [merge]
  split <;> omega

theorem largest_of_mem (h : ⟨r, i⟩ ∈ taken) : largest taken r i = 0 := by
  cases r <;> exact if_pos h

theorem largest_le (taken : Finset Block) (r i : Nat) : largest taken r i ≤ r + 1 := by
  induction r generalizing i with
  | zero =>
      rw [largest]
      split <;> omega
  | succ r ih =>
      rw [largest]
      split
      · omega
      · exact merge_le (ih _) (ih _)

/-- The value is full exactly when nothing inside the block is taken. -/
theorem largest_eq_top_iff :
    largest taken r i = r + 1 ↔ ∀ c ∈ taken, ¬c.Within ⟨r, i⟩ := by
  induction r generalizing i with
  | zero =>
      rw [largest]
      constructor
      · intro h c hc hcb
        rw [Block.within_zero_iff] at hcb
        rw [if_pos (hcb ▸ hc)] at h
        omega
      · intro h
        exact if_neg fun hmem => h _ hmem (Block.Within.refl _)
  | succ r ih =>
      rw [largest]
      have hl := largest_le taken r (2 * i)
      have hr := largest_le taken r (2 * i + 1)
      constructor
      · intro h c hc hcb
        by_cases hmem : ⟨r + 1, i⟩ ∈ taken
        · rw [if_pos hmem] at h
          omega
        · rw [if_neg hmem, merge] at h
          have hboth : largest taken r (2 * i) = r + 1 ∧ largest taken r (2 * i + 1) = r + 1 := by
            by_contra hnot
            rw [if_neg hnot] at h
            omega
          obtain rfl | hcb | hcb := Block.within_succ_iff.mp hcb
          · exact hmem hc
          · exact ih.mp hboth.1 c hc hcb
          · exact ih.mp hboth.2 c hc hcb
      · intro h
        rw [if_neg fun hmem => h _ hmem (Block.Within.refl _), merge, if_pos]
        exact ⟨ih.mpr fun c hc hcb => h c hc (Block.within_succ_iff.mpr (.inr (.inl hcb))),
          ih.mpr fun c hc hcb => h c hc (Block.within_succ_iff.mpr (.inr (.inr hcb)))⟩

/-- A block that is neither taken nor inside a taken one, and contains nothing taken, is free. -/
theorem free_iff (hb : ¬Covered taken b) : Free taken b ↔ ∀ c ∈ taken, ¬c.Within b := by
  constructor
  · exact fun h c hc => (Block.apart_iff.mp (h c hc)).2
  · refine fun h c hc => Block.apart_iff.mpr ⟨fun hbc => ?_, h c hc⟩
    by_cases he : b = c
    · exact h c hc (he ▸ Block.Within.refl b)
    · exact hb ⟨c, hc, hbc, he⟩

/-- A block above a half of `⟨r + 1, i⟩` is above the whole. -/
theorem within_of_half {j : Nat} (hj : j / 2 = i) (h : Block.Within ⟨r, j⟩ c) (hne : ⟨r, j⟩ ≠ c) :
    Block.Within ⟨r + 1, i⟩ c := by
  obtain ⟨horder, hpos⟩ := h
  simp only at horder hpos
  have hlt : r < c.order := by
    obtain h | h := Nat.lt_or_eq_of_le horder
    · exact h
    · subst h
      rw [Nat.sub_self, Nat.pow_zero, Nat.div_one] at hpos
      cases c
      simp_all
  refine ⟨hlt, ?_⟩
  have := Block.div_pow_div_pow (m := 1) (n := c.order - r) (by omega) j
  rw [Nat.pow_one, hj, show c.order - r - 1 = c.order - (r + 1) by omega, hpos] at this
  exact this

/-- The halves of a block that is not taken and not inside a taken one are not either. -/
theorem not_covered_half (hb : ¬Covered taken ⟨r + 1, i⟩) (hmem : ⟨r + 1, i⟩ ∉ taken) {j : Nat}
    (hj : j / 2 = i) : ¬Covered taken ⟨r, j⟩ := by
  rintro ⟨c, hct, hac, hne⟩
  have hbc := within_of_half hj hac hne
  by_cases he : ⟨r + 1, i⟩ = c
  · exact hmem (he ▸ hct)
  · exact hb ⟨c, hct, hbc, he⟩

theorem lt_merge_iff {order left right : Nat} (hnot : ¬(left = order ∧ right = order)) :
    k < merge order left right ↔ k < left ∨ k < right := by
  rw [merge, if_neg hnot, lt_max_iff]

/-- `largest` tells the orders of the free blocks inside a block. -/
theorem lt_largest_iff (hb : ¬Covered taken ⟨r, i⟩) :
    k < largest taken r i ↔ ∃ c : Block, k ≤ c.order ∧ c.Within ⟨r, i⟩ ∧ Free taken c := by
  induction r generalizing i with
  | zero =>
      have hfull : largest taken 0 i = 0 + 1 ↔ ∀ c ∈ taken, ¬c.Within ⟨0, i⟩ :=
        largest_eq_top_iff
      have hle := largest_le taken 0 i
      constructor
      · intro h
        refine ⟨⟨0, i⟩, by simp only; omega, Block.Within.refl _, (free_iff hb).mpr ?_⟩
        exact hfull.mp (by omega)
      · rintro ⟨c, hk, hc, hfree⟩
        rw [Block.within_zero_iff] at hc
        subst hc
        rw [hfull.mpr ((free_iff hb).mp hfree)]
        simp only at hk
        omega
  | succ r ih =>
      by_cases hmem : ⟨r + 1, i⟩ ∈ taken
      · rw [largest, if_pos hmem]
        constructor
        · omega
        · rintro ⟨c, -, hc, hfree⟩
          exact ((Block.apart_iff.mp (hfree _ hmem)).1 hc).elim
      have hleft := ih (not_covered_half (j := 2 * i) hb hmem (by omega))
      have hright := ih (not_covered_half (j := 2 * i + 1) hb hmem (by omega))
      have hsub {c : Block} (hc : c.Within ⟨r, 2 * i⟩ ∨ c.Within ⟨r, 2 * i + 1⟩) :
          c.Within ⟨r + 1, i⟩ := Block.within_succ_iff.mpr (.inr hc)
      by_cases hfull : ∀ c ∈ taken, ¬c.Within ⟨r + 1, i⟩
      · rw [largest_eq_top_iff.mpr hfull]
        constructor
        · intro h
          exact ⟨⟨r + 1, i⟩, Nat.le_of_lt_succ h, Block.Within.refl _, (free_iff hb).mpr hfull⟩
        · rintro ⟨c, hk, hc, -⟩
          exact Nat.lt_succ_of_le (hk.trans hc.1)
      · have hnot : ¬(largest taken r (2 * i) = r + 1 ∧ largest taken r (2 * i + 1) = r + 1) := by
          rintro ⟨hl, hr⟩
          refine hfull fun c hc hcb => ?_
          obtain rfl | hcb | hcb := Block.within_succ_iff.mp hcb
          · exact hmem hc
          · exact largest_eq_top_iff.mp hl c hc hcb
          · exact largest_eq_top_iff.mp hr c hc hcb
        rw [largest, if_neg hmem, lt_merge_iff hnot, hleft, hright]
        constructor
        · rintro (⟨c, hk, hc, hfree⟩ | ⟨c, hk, hc, hfree⟩)
          · exact ⟨c, hk, hsub (.inl hc), hfree⟩
          · exact ⟨c, hk, hsub (.inr hc), hfree⟩
        · rintro ⟨c, hk, hc, hfree⟩
          obtain rfl | hc | hc := Block.within_succ_iff.mp hc
          · exact (hfull ((free_iff hb).mp hfree)).elim
          · exact .inl ⟨c, hk, hc, hfree⟩
          · exact .inr ⟨c, hk, hc, hfree⟩

/-- The value depends only on the blocks taken inside the block. -/
theorem largest_congr {taken' : Finset Block}
    (h : ∀ c : Block, c.Within ⟨r, i⟩ → (c ∈ taken ↔ c ∈ taken')) :
    largest taken r i = largest taken' r i := by
  induction r generalizing i with
  | zero => simp only [largest, h _ (Block.Within.refl _)]
  | succ r ih =>
      have hl := ih (i := 2 * i) fun c hc => h c (Block.within_succ_iff.mpr (.inr (.inl hc)))
      have hr := ih (i := 2 * i + 1) fun c hc => h c (Block.within_succ_iff.mpr (.inr (.inr hc)))
      simp only [largest, h _ (Block.Within.refl _), hl, hr]

/-- The value that a block has in the tree of blocks: what `largest` says, and the value of a
free block strictly inside a taken one. -/
def value (taken : Finset Block) (b : Block) : Nat :=
  if Covered taken b then b.order + 1 else largest taken b.order b.pos

theorem value_of_not_covered (h : ¬Covered taken b) : value taken b = largest taken b.order b.pos :=
  if_neg h

theorem not_covered_of_free (h : Free taken b) : ¬Covered taken b := by
  rintro ⟨c, hc, hbc, -⟩
  exact (Block.apart_iff.mp (h c hc)).1 hbc

theorem value_of_free (h : Free taken b) : value taken b = b.order + 1 := by
  have hcov := not_covered_of_free h
  rw [value_of_not_covered hcov]
  exact largest_eq_top_iff.mpr ((free_iff hcov).mp h)

/-- Taking a free block changes the values of this block and of those above it only. -/
theorem value_insert (hfree : Free taken b) (hc : b.Within c → c.order ≤ b.order) :
    value (insert b taken) c = if c = b then 0 else value taken c := by
  have hself : b.Within c → c = b := by
    intro h
    have := h.eq_above
    rwa [Nat.le_antisymm (hc h) h.1, Block.above_self] at this
  split
  · rename_i he
    subst he
    have hcov : ¬Covered (insert c taken) c := by
      rintro ⟨d, hd, hcd, hne⟩
      obtain rfl | hd := Finset.mem_insert.mp hd
      · exact hne rfl
      · exact (Block.apart_iff.mp (hfree d hd)).1 hcd
    have hlt : ¬0 < largest (insert c taken) c.order c.pos := by
      rw [lt_largest_iff hcov]
      rintro ⟨d, -, hd, hapart⟩
      exact (Block.apart_iff.mp (hapart c (Finset.mem_insert_self c taken))).1 hd
    rw [value_of_not_covered hcov]
    exact Nat.eq_zero_of_not_pos hlt
  · rename_i hne
    by_cases hin : c.Within b
    · rw [value_of_free (hfree.mono hin)]
      exact if_pos ⟨b, Finset.mem_insert_self b taken, hin, hne⟩
    · have hcov : Covered (insert b taken) c ↔ Covered taken c := by
        constructor
        · rintro ⟨d, hd, hcd, hcne⟩
          obtain rfl | hd := Finset.mem_insert.mp hd
          · exact (hin hcd).elim
          · exact ⟨d, hd, hcd, hcne⟩
        · rintro ⟨d, hd, hcd⟩
          exact ⟨d, Finset.mem_insert_of_mem hd, hcd⟩
      have hlargest : largest (insert b taken) c.order c.pos = largest taken c.order c.pos := by
        refine largest_congr fun d hd => ?_
        rw [Finset.mem_insert, or_iff_right]
        rintro rfl
        exact hne (hself hd)
      simp only [value, hcov, hlargest]

/-- The value of a block that is not taken, from the values of its halves. -/
theorem value_merge (hcov : ¬Covered taken ⟨r + 1, i⟩) (hmem : ⟨r + 1, i⟩ ∉ taken) :
    value taken ⟨r + 1, i⟩ =
      merge (r + 1) (value taken ⟨r, 2 * i⟩) (value taken ⟨r, 2 * i + 1⟩) := by
  rw [value_of_not_covered hcov,
    value_of_not_covered (not_covered_half (j := 2 * i) hcov hmem (by omega)),
    value_of_not_covered (not_covered_half (j := 2 * i + 1) hcov hmem (by omega)),
    largest, if_neg hmem]

/-- No two blocks of the set overlap. -/
def Separate (taken : Finset Block) : Prop := ∀ a ∈ taken, ∀ b ∈ taken, a ≠ b → a.Apart b

theorem Separate.insert (h : Separate taken) (hb : Free taken b) : Separate (insert b taken) := by
  intro x hx y hy hne
  obtain rfl | hxt := Finset.mem_insert.mp hx
  · obtain rfl | hyt := Finset.mem_insert.mp hy
    · exact (hne rfl).elim
    · exact hb y hyt
  · obtain rfl | hyt := Finset.mem_insert.mp hy
    · exact (hb x hxt).symm
    · exact h x hxt y hyt hne

theorem Separate.free_erase (h : Separate taken) (hb : b ∈ taken) : Free (taken.erase b) b :=
  fun c hc => h b hb c (Finset.mem_of_mem_erase hc) (Finset.ne_of_mem_erase hc).symm

theorem Separate.erase (h : Separate taken) : Separate (taken.erase b) :=
  fun x hx y hy => h x (Finset.mem_of_mem_erase hx) y (Finset.mem_of_mem_erase hy)

/-- The value of a taken block is `0`. -/
theorem Separate.value_of_mem (h : Separate taken) (hb : b ∈ taken) : value taken b = 0 := by
  rw [value_of_not_covered, largest_of_mem hb]
  rintro ⟨c, hc, hwithin, hne⟩
  exact (Block.apart_iff.mp (h b hb c hc hne)).1 hwithin

/-- What is above a taken block is neither taken nor covered. -/
theorem Separate.above (h : Separate taken) (hb : b ∈ taken) (hr : b.order < r) :
    b.above r ∉ taken ∧ ¬Covered taken (b.above r) := by
  have hin := Block.within_above (b := b) (Nat.le_of_lt hr)
  have hne : b ≠ b.above r := by
    intro he
    have := congrArg Block.order he
    simp only [Block.above_order] at this
    omega
  have key {c : Block} (hc : c ∈ taken) (hcb : (b.above r).Within c) : False := by
    by_cases he : b = c
    · subst he
      exact hne (hin.antisymm hcb)
    · exact (Block.apart_iff.mp (h b hb c hc he)).1 (hin.trans hcb)
  exact ⟨fun hmem => key hmem (Block.Within.refl _), fun ⟨c, hc, hcb, _⟩ => key hc hcb⟩

end Aligned
