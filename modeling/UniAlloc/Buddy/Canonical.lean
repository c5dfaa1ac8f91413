import UniAlloc.Aligned.Basic
import UniAlloc.Buddy.Basic
import UniAlloc.Memory
import UniAlloc.Transition.Basic

/-!
# The buddy tree tells what is free

Each node of the flat array stands for an aligned block. The array of a reachable tree
holds, at every node, the value of that block among the live ones. A write to a node
spoils only the nodes above it, and the loops of `allocate` and `deallocate` repair
these one after the other.
-/

namespace UniAlloc.Buddy

open Aligned (Covered Free Separate largest value merge)

variable {B M : Nat} {taken : Finset Aligned.Block} {b c : Aligned.Block} {r : Nat}

/-- The block is a node of the tree. -/
def InTree (M : Nat) (c : Aligned.Block) : Prop := c.order ≤ M ∧ c.pos < 2 ^ (M - c.order)

/-- The 1-indexed node of a block. -/
def nodeIndex (M : Nat) (c : Aligned.Block) : Nat := 2 ^ (M - c.order) + c.pos

theorem nodeIndex_pos (M : Nat) (c : Aligned.Block) : 0 < nodeIndex M c :=
  Nat.add_pos_left (Nat.two_pow_pos _) _

/-- The level of a node is the logarithm of its index. -/
theorem InTree.log2 (h : InTree M c) : (nodeIndex M c).log2 = M - c.order := by
  have hpos := nodeIndex_pos M c
  apply (Nat.log2_eq_iff hpos.ne').mpr
  rw [nodeIndex, Nat.pow_succ]
  exact ⟨Nat.le_add_right _ _, by have := h.2; omega⟩

theorem InTree.nodeIndex_inj (hb : InTree M b) (hc : InTree M c)
    (h : nodeIndex M b = nodeIndex M c) : b = c := by
  have horder : M - b.order = M - c.order := by rw [← hb.log2, ← hc.log2, h]
  rw [nodeIndex, nodeIndex, horder] at h
  obtain ⟨hb, -⟩ := hb
  obtain ⟨hc, -⟩ := hc
  cases b
  cases c
  simp_all
  omega

theorem InTree.nodeIndex_lt (h : InTree M c) : nodeIndex M c < 2 ^ (M + 1) := by
  have hle : 2 ^ (M - c.order) ≤ 2 ^ M := Nat.pow_le_pow_right (by omega) (Nat.sub_le _ _)
  have := h.2
  rw [nodeIndex, Nat.pow_succ]
  omega

theorem InTree.above (h : InTree M b) (hb : b.order ≤ r) (hr : r ≤ M) :
    InTree M (b.above r) := by
  refine ⟨hr, ?_⟩
  simp only [Aligned.Block.above]
  apply Nat.div_lt_of_lt_mul
  rw [← Nat.pow_add]
  have := h.2
  rwa [show r - b.order + (M - r) = M - b.order by omega]

theorem InTree.half {i j : Nat} (h : InTree M ⟨r + 1, i⟩) (hj : j / 2 = i) :
    InTree M ⟨r, j⟩ := by
  obtain ⟨horder, hpos⟩ := h
  simp only at horder hpos
  refine ⟨by simp only; omega, ?_⟩
  simp only
  rw [show M - r = M - (r + 1) + 1 by omega, Nat.pow_succ]
  omega

theorem InTree.within_root (h : InTree M c) : c.Within ⟨M, 0⟩ :=
  ⟨h.1, Nat.div_eq_of_lt h.2⟩

theorem inTree_of_within (h : c.Within ⟨M, 0⟩) : InTree M c :=
  ⟨h.1, by
    have := (Nat.div_eq_zero_iff.mp h.2).resolve_left (Nat.two_pow_pos _).ne'
    exact this⟩

theorem leftChild_nodeIndex {i : Nat} (h : r + 1 ≤ M) :
    FlatTree.leftChild (nodeIndex M ⟨r + 1, i⟩) = nodeIndex M ⟨r, 2 * i⟩ := by
  simp only [FlatTree.leftChild, nodeIndex, Nat.shiftLeft_eq]
  rw [show M - r = M - (r + 1) + 1 by omega, Nat.pow_succ]
  omega

theorem nodeIndex_right (M r i : Nat) :
    nodeIndex M ⟨r, 2 * i⟩ + 1 = nodeIndex M ⟨r, 2 * i + 1⟩ := rfl

theorem parent_nodeIndex {j : Nat} (h : r + 1 ≤ M) :
    FlatTree.parent (nodeIndex M ⟨r, j⟩) = nodeIndex M ⟨r + 1, j / 2⟩ := by
  simp only [FlatTree.parent, nodeIndex, Nat.shiftRight_eq_div_pow]
  rw [show M - r = M - (r + 1) + 1 by omega, Nat.pow_succ]
  omega

/-- The parent of the block above. -/
theorem parent_above (hb : b.order ≤ r) (hr : r + 1 ≤ M) :
    FlatTree.parent (nodeIndex M (b.above r)) = nodeIndex M (b.above (r + 1)) := by
  rw [Aligned.Block.above_succ hb, ← parent_nodeIndex hr]
  rfl

/-- Every taken block is a node and no two overlap. -/
structure Tiling (M : Nat) (taken : Finset Aligned.Block) : Prop where
  inTree : ∀ c ∈ taken, InTree M c
  separate : Separate taken

theorem Tiling.root_not_covered (h : Tiling M taken) : ¬Covered taken ⟨M, 0⟩ := by
  rintro ⟨c, hc, hin, hne⟩
  have horder := Nat.le_antisymm hin.1 (h.inTree c hc).1
  have := hin.eq_above
  rw [← horder] at this
  exact hne (this.trans (Aligned.Block.above_self ⟨M, 0⟩)).symm

namespace BuddyTree

/-- What the array holds at the node of a block. -/
def freeAt (tree : BuddyTree B M) (c : Aligned.Block) : Nat :=
  (tree.block (nodeIndex M c - 1)).orderFree

theorem freeAt_set_self (tree : BuddyTree B M) (c : Aligned.Block) (v : Nat) :
    (tree.setBlock (nodeIndex M c - 1) v).freeAt c = v := by
  simp [freeAt, block, setBlock]

theorem freeAt_set_other (tree : BuddyTree B M) {v : Nat} (hb : InTree M b) (hc : InTree M c)
    (hne : c ≠ b) : (tree.setBlock (nodeIndex M b - 1) v).freeAt c = tree.freeAt c := by
  have hindex : nodeIndex M c - 1 ≠ nodeIndex M b - 1 := by
    intro h
    have := nodeIndex_pos M b
    have := nodeIndex_pos M c
    exact hne (hc.nodeIndex_inj hb (by omega))
  simp only [freeAt, block, setBlock, if_neg hindex]

/-- The array is right at every node but those above `b` whose order is over `r`. -/
def Shows (tree : BuddyTree B M) (taken : Finset Aligned.Block) (b : Aligned.Block) (r : Nat) :
    Prop :=
  ∀ c, InTree M c → (b.Within c → c.order ≤ r) → tree.freeAt c = value taken c

/-- The array is right at every node. -/
def Exact (tree : BuddyTree B M) (taken : Finset Aligned.Block) : Prop :=
  ∀ c, InTree M c → tree.freeAt c = value taken c

variable {tree : BuddyTree B M}

/-- `update_block` repairs the next node above. -/
theorem Shows.updateBlock (h : tree.Shows taken b r) (hb : InTree M b) (hle : b.order ≤ r)
    (hr : r + 1 ≤ M) (hmem : b.above (r + 1) ∉ taken)
    (hcov : ¬Covered taken (b.above (r + 1))) :
    (tree.updateBlock (nodeIndex M (b.above (r + 1))) (r + 1)).Shows taken b (r + 1) := by
  have habove := hb.above (hle.trans (Nat.le_succ r)) hr
  obtain ⟨i, hi⟩ : ∃ i, b.above (r + 1) = ⟨r + 1, i⟩ := ⟨_, rfl⟩
  rw [hi] at habove hmem hcov ⊢
  have hleft : (tree.block (FlatTree.leftChild (nodeIndex M ⟨r + 1, i⟩) - 1)).orderFree =
      value taken ⟨r, 2 * i⟩ := by
    rw [leftChild_nodeIndex hr]
    exact h _ (habove.half (by omega)) fun _ => le_rfl
  have hright : (tree.block (FlatTree.leftChild (nodeIndex M ⟨r + 1, i⟩) - 1 + 1)).orderFree =
      value taken ⟨r, 2 * i + 1⟩ := by
    have := nodeIndex_pos M ⟨r, 2 * i⟩
    rw [leftChild_nodeIndex hr, Nat.sub_add_cancel this]
    exact h ⟨r, 2 * i + 1⟩ (habove.half (by omega)) fun _ => le_rfl
  have hset : tree.updateBlock (nodeIndex M ⟨r + 1, i⟩) (r + 1) =
      tree.setBlock (nodeIndex M ⟨r + 1, i⟩ - 1) (value taken ⟨r + 1, i⟩) := by
    simp only [BuddyTree.updateBlock, hleft, hright, Aligned.value_merge hcov hmem, merge]
    split <;> rfl
  rw [hset]
  intro c hc hwithin
  by_cases he : c = ⟨r + 1, i⟩
  · rw [he, freeAt_set_self]
  · rw [freeAt_set_other _ habove hc he]
    apply h c hc
    intro hbc
    refine Nat.le_of_lt_succ (Nat.lt_of_le_of_ne (hwithin hbc) fun horder => he ?_)
    rw [hbc.eq_above, horder, hi]

/-- `update_blocks_above` repairs one node after the other. -/
theorem updateBlocksAbove_spec (levels : Nat) (h : tree.Shows taken b b.order)
    (hb : InTree M b) (hle : b.order + levels ≤ M)
    (habove : ∀ r, b.order < r → b.above r ∉ taken ∧ ¬Covered taken (b.above r)) :
    (tree.updateBlocksAbove (nodeIndex M b) b.order levels).1.Shows taken b (b.order + levels) ∧
      (tree.updateBlocksAbove (nodeIndex M b) b.order levels).2 =
        nodeIndex M (b.above (b.order + levels)) := by
  induction levels with
  | zero => exact ⟨h, by simp only [updateBlocksAbove, Nat.add_zero, Aligned.Block.above_self]⟩
  | succ levels ih =>
      obtain ⟨hshows, hindex⟩ := ih (by omega)
      have hnext := habove (b.order + levels + 1) (by omega)
      simp only [updateBlocksAbove, hindex]
      rw [parent_above (by omega) (by omega), Nat.add_right_comm b.order 1 levels]
      exact ⟨hshows.updateBlock hb (by omega) (by omega) hnext.1 hnext.2, rfl⟩

theorem Shows.exact (h : tree.Shows taken b M) : tree.Exact taken :=
  fun c hc => h c hc fun _ => hc.1

/-- The 1-indexed node that `deallocate` computes. -/
theorem deallocate_index (B M order pos : Nat) :
    blocksInTree (M - order) + (pos * 2 ^ (order + B)) >>> (order + B) + 1 =
      nodeIndex M ⟨order, pos⟩ := by
  have := Nat.two_pow_pos (M - order)
  simp only [blocksInTree, nodeIndex, Nat.shiftLeft_eq, Nat.shiftRight_eq_div_pow, Nat.one_mul,
    Nat.mul_div_cancel _ (Nat.two_pow_pos (order + B))]
  omega

theorem deallocate_eq (tree : BuddyTree B M) (order pos : Nat) :
    tree.deallocate (pos * 2 ^ (order + B)) order =
      ((tree.setBlock (nodeIndex M ⟨order, pos⟩ - 1) (order + 1)).updateBlocksAbove
        (nodeIndex M ⟨order, pos⟩) order (M - order)).1 := by
  simp only [deallocate, deallocate_index]

theorem deallocate_exact (h : tree.Exact taken) (hsep : Separate taken) (hb : b ∈ taken)
    (hin : InTree M b) :
    (tree.deallocate (b.pos * 2 ^ (b.order + B)) b.order).Exact (taken.erase b) := by
  have hfree := hsep.free_erase hb
  have hshows : (tree.setBlock (nodeIndex M b - 1) (b.order + 1)).Shows (taken.erase b) b
      b.order := by
    intro c hc hwithin
    by_cases he : c = b
    · rw [he, freeAt_set_self, Aligned.value_of_free hfree]
    · have := Aligned.value_insert hfree hwithin
      rw [Finset.insert_erase hb, if_neg he] at this
      rw [freeAt_set_other _ hin hc he, h c hc, this]
  have habove : ∀ r, b.order < r → b.above r ∉ taken.erase b ∧
      ¬Covered (taken.erase b) (b.above r) := by
    intro r hr
    obtain ⟨hmem, hcov⟩ := hsep.above hb hr
    exact ⟨fun h => hmem (Finset.mem_of_mem_erase h),
      fun ⟨c, hc, hbc⟩ => hcov ⟨c, Finset.mem_of_mem_erase hc, hbc⟩⟩
  have hle := hin.1
  obtain ⟨hup, -⟩ := updateBlocksAbove_spec (M - b.order) hshows hin (by omega) habove
  rw [Nat.add_sub_cancel' hle] at hup
  rw [deallocate_eq]
  exact hup.exact

/-- A node whose value exceeds an order contains a free block of that order. The search turns
right only if the left half contains none. -/
theorem descendStep_spec {d level i : Nat} (h : tree.Exact taken) (hlevel : level < M - d)
    (hin : InTree M ⟨M - level, i⟩) (hcov : ¬Covered taken ⟨M - level, i⟩)
    (hbig : d < value taken ⟨M - level, i⟩)
    (hfirst : ∀ q, Free taken ⟨d, q⟩ → i * 2 ^ (M - level - d) ≤ q) :
    ∃ j, tree.descendStep d level (i * 2 ^ (M - level + B), nodeIndex M ⟨M - level, i⟩) =
        (j * 2 ^ (M - (level + 1) + B), nodeIndex M ⟨M - (level + 1), j⟩) ∧
      InTree M ⟨M - (level + 1), j⟩ ∧ ¬Covered taken ⟨M - (level + 1), j⟩ ∧
      d < value taken ⟨M - (level + 1), j⟩ ∧
      ∀ q, Free taken ⟨d, q⟩ → j * 2 ^ (M - (level + 1) - d) ≤ q := by
  obtain ⟨r, hr⟩ : ∃ r, M - level = r + 1 := ⟨M - level - 1, by omega⟩
  rw [hr] at hin hcov hbig hfirst ⊢
  rw [show M - (level + 1) = r by omega]
  have hdouble : 2 * i * 2 ^ (r - d) = i * 2 ^ (r + 1 - d) := by
    rw [show r + 1 - d = r - d + 1 by omega, Nat.pow_succ]
    ring
  have hmem : (⟨r + 1, i⟩ : Aligned.Block) ∉ taken := by
    intro hmem
    rw [Aligned.value_of_not_covered hcov, largest, if_pos hmem] at hbig
    omega
  have hleft : (tree.block (FlatTree.leftChild (nodeIndex M ⟨r + 1, i⟩) - 1)).orderFree =
      value taken ⟨r, 2 * i⟩ := by
    rw [leftChild_nodeIndex (by omega)]
    exact h _ (hin.half (by omega))
  simp only [descendStep, hleft]
  split
  · rename_i hgo
    refine ⟨2 * i, ?_, hin.half (by omega), Aligned.not_covered_half hcov hmem (by omega), hgo.2,
      fun q hq => hdouble ▸ hfirst q hq⟩
    rw [leftChild_nodeIndex (by omega), show r + 1 + B = r + B + 1 by omega, Nat.pow_succ]
    congr 1
    ring
  · rename_i hgo
    refine ⟨2 * i + 1, ?_, hin.half (by omega),
      Aligned.not_covered_half hcov hmem (by omega), ?_, fun q hq => ?_⟩
    · rw [leftChild_nodeIndex (by omega), nodeIndex_right, Nat.shiftLeft_eq,
        show B + M - level - 1 = r + B by omega, show r + 1 + B = r + B + 1 by omega, Nat.pow_succ]
      congr 1
      ring
    · have hnot : ¬(value taken ⟨r, 2 * i⟩ = r + 1 ∧ value taken ⟨r, 2 * i + 1⟩ = r + 1) := by
        rintro ⟨hfull, -⟩
        omega
      rw [Aligned.value_merge hcov hmem, Aligned.lt_merge_iff hnot] at hbig
      omega
    · by_contra hlt
      have hleftCov := Aligned.not_covered_half (j := 2 * i) hcov hmem (by omega)
      rw [Aligned.value_of_not_covered hleftCov] at hgo
      have hwithin : Aligned.Block.Within ⟨d, q⟩ ⟨r, 2 * i⟩ := by
        refine ⟨by simp only; omega, ?_⟩
        have := hfirst q hq
        rw [Nat.add_mul, Nat.one_mul] at hlt
        exact (Nat.div_eq_iff (Nat.two_pow_pos _)).mpr (by simp only; omega)
      have hbig' := (Aligned.lt_largest_iff hleftCov).mpr ⟨_, le_rfl, hwithin, hq⟩
      exact hgo ⟨by simp only at hbig' ⊢; omega, hbig'⟩

/-- The search ends at the first free block of the order. -/
theorem descend_spec {d : Nat} (h : tree.Exact taken)
    (hroot : ¬Covered taken ⟨M, 0⟩) (hbig : d < value taken ⟨M, 0⟩) (level : Nat)
    (hlevel : level ≤ M - d) :
    ∃ i, tree.descend d level = (i * 2 ^ (M - level + B), nodeIndex M ⟨M - level, i⟩) ∧
      InTree M ⟨M - level, i⟩ ∧ ¬Covered taken ⟨M - level, i⟩ ∧
      d < value taken ⟨M - level, i⟩ ∧
      ∀ q, Free taken ⟨d, q⟩ → i * 2 ^ (M - level - d) ≤ q := by
  induction level with
  | zero => exact ⟨0, by simp [descend, nodeIndex], ⟨le_rfl, by simp⟩, hroot, hbig, by simp⟩
  | succ level ih =>
      obtain ⟨i, hi, hin, hcov, hbig, hfirst⟩ := ih (by omega)
      rw [descend, hi]
      exact descendStep_spec h (by omega) hin hcov hbig hfirst

theorem and_not_one {n : Nat} (h : n < 2 ^ 64) : n &&& (2 ^ 64 - 2) = 2 * (n / 2) := by
  have := and_clear_low (k := 1) h (by omega)
  rwa [Nat.pow_one, Nat.mul_comm] at this

/-- A block with a taken one inside is not full, so that the larger value of the children is
what `update_block` computes. -/
theorem ascendStep_eq (h : tree.Shows taken b r) (hb : InTree M b) (hM : M < 63)
    (hle : b.order ≤ r) (hr : r + 1 ≤ M) (hmem : b ∈ taken) (hcov : ¬Covered taken (b.above r)) :
    tree.ascendStep (nodeIndex M (b.above r)) =
      (tree.updateBlock (nodeIndex M (b.above (r + 1))) (r + 1),
        nodeIndex M (b.above (r + 1))) := by
  have habove := hb.above hle (by omega)
  have hsmall : nodeIndex M (b.above r) < 2 ^ 64 :=
    habove.nodeIndex_lt.trans_le (Nat.pow_le_pow_right (by omega) (by omega))
  have hnotfull : tree.freeAt (b.above r) ≠ r + 1 := by
    rw [h _ habove fun _ => le_rfl, Aligned.value_of_not_covered hcov]
    intro hfull
    exact Aligned.largest_eq_top_iff.mp hfull b hmem (Aligned.Block.within_above hle)
  have hhalf : nodeIndex M (b.above r) / 2 = nodeIndex M (b.above (r + 1)) := by
    rw [← parent_above hle hr, FlatTree.parent, Nat.shiftRight_eq_div_pow, Nat.pow_one]
  have hpos := nodeIndex_pos M (b.above (r + 1))
  have hchild : ¬((tree.block (2 * nodeIndex M (b.above (r + 1)) - 1)).orderFree = r + 1 ∧
      (tree.block (2 * nodeIndex M (b.above (r + 1)))).orderFree = r + 1) := by
    rintro ⟨hl, hr'⟩
    apply hnotfull
    rw [freeAt]
    obtain hparity | hparity := Nat.mod_two_eq_zero_or_one (nodeIndex M (b.above r))
    · rw [show nodeIndex M (b.above r) = 2 * nodeIndex M (b.above (r + 1)) by omega]
      exact hl
    · rw [show nodeIndex M (b.above r) - 1 = 2 * nodeIndex M (b.above (r + 1)) by omega]
      exact hr'
  have hleft : FlatTree.leftChild (nodeIndex M (b.above (r + 1))) =
      2 * nodeIndex M (b.above (r + 1)) := by
    rw [FlatTree.leftChild, Nat.shiftLeft_eq]
    omega
  simp only [ascendStep, and_not_one hsmall, parent_above hle hr, hhalf, BuddyTree.updateBlock,
    hleft]
  rw [Nat.sub_add_cancel (by omega), if_neg hchild]

theorem ascend_spec (levels : Nat) (h : tree.Shows taken b b.order) (hb : InTree M b)
    (hM : M < 63) (hle : b.order + levels ≤ M) (hmem : b ∈ taken) (hcov : ¬Covered taken b)
    (habove : ∀ r, b.order < r → b.above r ∉ taken ∧ ¬Covered taken (b.above r)) :
    (tree.ascend (nodeIndex M b) levels).1.Shows taken b (b.order + levels) ∧
      (tree.ascend (nodeIndex M b) levels).2 = nodeIndex M (b.above (b.order + levels)) := by
  induction levels with
  | zero => exact ⟨h, by simp only [ascend, Nat.add_zero, Aligned.Block.above_self]⟩
  | succ levels ih =>
      obtain ⟨hshows, hindex⟩ := ih (by omega)
      have hnext := habove (b.order + levels + 1) (by omega)
      have hcov' : ¬Covered taken (b.above (b.order + levels)) := by
        cases levels with
        | zero => rwa [Nat.add_zero, Aligned.Block.above_self]
        | succ levels => exact (habove _ (by omega)).2
      simp only [ascend, hindex]
      rw [ascendStep_eq hshows hb hM (by omega) (by omega) hmem hcov']
      exact ⟨hshows.updateBlock hb (by omega) (by omega) hnext.1 hnext.2, rfl⟩

theorem Exact.root (h : tree.Exact taken) : (tree.block 0).orderFree = value taken ⟨M, 0⟩ := by
  have := h ⟨M, 0⟩ ⟨le_rfl, by simp⟩
  rwa [freeAt, show nodeIndex M ⟨M, 0⟩ - 1 = 0 by simp [nodeIndex]] at this

/-- `allocate` refuses exactly the orders of which no block is free. -/
theorem allocate_eq_none_iff {d : Nat} (h : tree.Exact taken) (htiling : Tiling M taken) :
    (tree.allocate d).1 = none ↔ ¬∃ i, InTree M ⟨d, i⟩ ∧ Free taken ⟨d, i⟩ := by
  have hroot := htiling.root_not_covered
  have hlarge : d < value taken ⟨M, 0⟩ ↔ ∃ i, InTree M ⟨d, i⟩ ∧ Free taken ⟨d, i⟩ := by
    rw [Aligned.value_of_not_covered hroot, Aligned.lt_largest_iff hroot]
    constructor
    · rintro ⟨c, hd, hin, hfree⟩
      have hwithin : Aligned.Block.Within ⟨d, c.pos * 2 ^ (c.order - d)⟩ c :=
        ⟨hd, Nat.mul_div_cancel _ (Nat.two_pow_pos _)⟩
      refine ⟨_, inTree_of_within (hwithin.trans hin), hfree.mono hwithin⟩
    · rintro ⟨i, hin, hfree⟩
      exact ⟨_, le_rfl, hin.within_root, hfree⟩
  rw [← hlarge]
  simp only [allocate, h.root]
  split
  · simp only [true_iff]
    omega
  · simp only [reduceCtorEq, false_iff, not_not]
    omega

/-- The block that `allocate` returns was the first free one, and afterwards the array is right
again. -/
theorem allocate_some {d ptr : Nat} {tree' : BuddyTree B M} (h : tree.Exact taken)
    (htiling : Tiling M taken) (hM : M < 63) (hrun : tree.allocate d = (some ptr, tree')) :
    ∃ i, ptr = i * 2 ^ (d + B) ∧ InTree M ⟨d, i⟩ ∧ Free taken ⟨d, i⟩ ∧
      (∀ q, Free taken ⟨d, q⟩ → i ≤ q) ∧ tree'.Exact (insert ⟨d, i⟩ taken) := by
  have hroot := htiling.root_not_covered
  have hvalue := h.root
  have hle : value taken ⟨M, 0⟩ ≤ M + 1 := by
    rw [Aligned.value_of_not_covered hroot]
    exact Aligned.largest_le taken M 0
  simp only [allocate, hvalue] at hrun
  split at hrun
  · cases hrun
  rename_i hbig
  obtain ⟨i, hi, hin, hcov, hbig', hfirst⟩ :=
    descend_spec (d := d) h hroot (by omega) (M - d) le_rfl
  rw [show M - (M - d) = d by omega] at hi hin hcov hbig' hfirst
  rw [Nat.sub_self, Nat.pow_zero, Nat.mul_one] at hfirst
  simp only [hi, Prod.mk.injEq, Option.some.injEq] at hrun
  obtain ⟨rfl, rfl⟩ := hrun
  have hfull : largest taken d i = d + 1 := by
    rw [Aligned.value_of_not_covered hcov] at hbig'
    have := Aligned.largest_le taken d i
    simp only at hbig'
    omega
  have hfree : Free taken ⟨d, i⟩ :=
    (Aligned.free_iff hcov).mpr (Aligned.largest_eq_top_iff.mp hfull)
  refine ⟨i, rfl, hin, hfree, hfirst, ?_⟩
  have hmem := Finset.mem_insert_self (⟨d, i⟩ : Aligned.Block) taken
  have hsep := htiling.separate.insert hfree
  have hcov' : ¬Covered (insert ⟨d, i⟩ taken) ⟨d, i⟩ := by
    rintro ⟨c, hc, hin', hne⟩
    exact (Aligned.Block.apart_iff.mp (hsep _ hmem c hc hne)).1 hin'
  have hshows : (tree.setBlock (nodeIndex M ⟨d, i⟩ - 1) 0).Shows (insert ⟨d, i⟩ taken) ⟨d, i⟩
      d := by
    intro c hc hwithin
    rw [Aligned.value_insert hfree hwithin]
    split
    · rename_i he
      rw [he, freeAt_set_self]
    · rename_i hne
      rw [freeAt_set_other _ hin hc hne, h c hc]
  have hup := (ascend_spec (M - d) hshows hin hM (by simp only; omega) hmem hcov'
    fun r hr => hsep.above hmem hr).1
  simp only [Nat.add_sub_cancel' hin.1] at hup
  exact hup.exact

/-- A refused call leaves the tree as it is. -/
theorem allocate_none {d : Nat} {tree' : BuddyTree B M}
    (hrun : tree.allocate d = (none, tree')) : tree' = tree := by
  simp only [allocate] at hrun
  split at hrun <;> cases hrun
  rfl

end BuddyTree

end UniAlloc.Buddy
