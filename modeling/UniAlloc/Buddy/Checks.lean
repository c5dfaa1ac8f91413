import UniAlloc.Buddy.Lowest

/-!
# The debug assertions of `deallocate`

In a debug build `deallocate` and the functions it calls check their arguments. The
checks pass for every live block but the last page of the heap, whose 1-indexed node
is compared with the length of the 0-indexed array.
-/

namespace UniAlloc.Buddy

open Aligned (Free)
open Transition

/-- What a debug assertion is about. -/
inductive DebugAssert where
  /-- `Block order > maximum order!` -/
  | blockOrder
  /-- `Block index out of bounds!` -/
  | blockIndex
  /-- `double-free detected!` -/
  | doubleFree
  /-- `Order 0 does not have children and thus cannot be updated from them!` -/
  | orderZero
  /-- `Node index 0 is invalid in 1 index tree!` -/
  | nodeZero
  /-- The index of `block` and `block_mut`. -/
  | treeIndex
  deriving DecidableEq

namespace BuddyTree

variable {BASE_ORDER MAX_ORDER : Nat}

/-- `block` of a debug build. -/
def blockChecked (tree : BuddyTree BASE_ORDER MAX_ORDER) (index : Nat) :
    Except DebugAssert Block :=
  if index < blocksInTree LEVEL_COUNT then .ok (tree.block index) else .error .treeIndex

/-- An assignment through `block_mut` of a debug build. -/
def setBlockChecked (tree : BuddyTree BASE_ORDER MAX_ORDER) (index orderFree : Nat) :
    Except DebugAssert (BuddyTree BASE_ORDER MAX_ORDER) :=
  if index < blocksInTree LEVEL_COUNT then .ok (tree.setBlock index orderFree)
  else .error .treeIndex

/-- `update_block` of a debug build. -/
def updateBlockChecked (tree : BuddyTree BASE_ORDER MAX_ORDER) (nodeIndex order : Nat) :
    Except DebugAssert (BuddyTree BASE_ORDER MAX_ORDER) :=
  if order = 0 then .error .orderZero
  else if nodeIndex = 0 then .error .nodeZero
  else do
    let leftIndex := FlatTree.leftChild nodeIndex - 1
    let left ← tree.blockChecked leftIndex
    let right ← tree.blockChecked (leftIndex + 1)
    if left.orderFree = order ∧ right.orderFree = order then
      tree.setBlockChecked (nodeIndex - 1) (order + 1)
    else tree.setBlockChecked (nodeIndex - 1) (max left.orderFree right.orderFree)

/-- `update_blocks_above` of a debug build. -/
def updateBlocksAboveChecked (tree : BuddyTree BASE_ORDER MAX_ORDER) (index order : Nat) :
    Nat → Except DebugAssert (BuddyTree BASE_ORDER MAX_ORDER × Nat)
  | 0 => .ok (tree, index)
  | levels + 1 => do
      let up ← updateBlocksAboveChecked tree index order levels
      let nodeIndex := FlatTree.parent up.2
      let tree ← updateBlockChecked up.1 nodeIndex (order + 1 + levels)
      .ok (tree, nodeIndex)

/-- `deallocate` of a debug build. -/
def deallocateChecked (tree : BuddyTree BASE_ORDER MAX_ORDER) (ptr order : Nat) :
    Except DebugAssert (BuddyTree BASE_ORDER MAX_ORDER) :=
  if MAX_ORDER < order then .error .blockOrder
  else
    let level := MAX_ORDER - order
    let levelOffset := blocksInTree level
    let index := levelOffset + ptr >>> (order + BASE_ORDER) + 1
    if BLOCKS_IN_TREE ≤ index then .error .blockIndex
    else do
      let block ← tree.blockChecked (index - 1)
      if block.orderFree ≠ 0 then .error .doubleFree
      else
        let freed ← tree.setBlockChecked (index - 1) (order + 1)
        let up ← updateBlocksAboveChecked freed index order (MAX_ORDER - order)
        .ok up.1

variable {B : Nat} {tree : BuddyTree B 22} {b c : Aligned.Block} {r : Nat}

theorem blockChecked_of_lt {index : Nat} (h : index + 1 < 2 ^ 23) :
    tree.blockChecked index = .ok (tree.block index) :=
  if_pos (show index < 2 ^ 23 - 1 by omega)

theorem setBlockChecked_of_lt {index : Nat} (v : Nat) (h : index + 1 < 2 ^ 23) :
    tree.setBlockChecked index v = .ok (tree.setBlock index v) :=
  if_pos (show index < 2 ^ 23 - 1 by omega)

/-- A node with children is updated within the array. -/
theorem updateBlockChecked_eq {i : Nat} (h : InTree 22 ⟨r + 1, i⟩) :
    tree.updateBlockChecked (nodeIndex 22 ⟨r + 1, i⟩) (r + 1) =
      .ok (tree.updateBlock (nodeIndex 22 ⟨r + 1, i⟩) (r + 1)) := by
  have hr : r + 1 ≤ 22 := h.1
  have hpos := nodeIndex_pos 22 ⟨r + 1, i⟩
  have hnode := h.nodeIndex_lt
  have hright : nodeIndex 22 ⟨r, 2 * i⟩ + 1 < 2 ^ 23 := by
    rw [nodeIndex_right]
    exact (h.half (j := 2 * i + 1) (by omega)).nodeIndex_lt
  rw [← leftChild_nodeIndex hr] at hright
  simp only [updateBlockChecked, updateBlock, if_neg (Nat.succ_ne_zero r), if_neg hpos.ne']
  rw [blockChecked_of_lt (by omega), blockChecked_of_lt (by omega)]
  show (if _ then _ else _) = _
  rw [setBlockChecked_of_lt _ (by omega), setBlockChecked_of_lt _ (by omega)]
  split <;> rfl

/-- On the way up from a block every check passes. -/
theorem updateBlocksAboveChecked_eq (h : InTree 22 b) (levels : Nat)
    (hle : b.order + levels ≤ 22) :
    tree.updateBlocksAboveChecked (nodeIndex 22 b) b.order levels =
        .ok (tree.updateBlocksAbove (nodeIndex 22 b) b.order levels) ∧
      (tree.updateBlocksAbove (nodeIndex 22 b) b.order levels).2 =
        nodeIndex 22 (b.above (b.order + levels)) := by
  induction levels with
  | zero => exact ⟨rfl, by rw [updateBlocksAbove, Nat.add_zero, Aligned.Block.above_self]⟩
  | succ levels ih =>
      obtain ⟨hcall, hindex⟩ := ih (by omega)
      have hparent := parent_above (b := b) (r := b.order + levels) (M := 22) (by omega) (by omega)
      have habove := h.above (r := b.order + levels + 1) (by omega) (by omega)
      rw [updateBlocksAboveChecked, hcall]
      simp only [updateBlocksAbove, hindex, hparent]
      refine ⟨?_, rfl⟩
      show updateBlockChecked _ (FlatTree.parent _) _ >>= _ = _
      rw [hindex, hparent, show b.order + 1 + levels = b.order + levels + 1 by omega,
        show b.above (b.order + levels + 1) = ⟨b.order + levels + 1, _⟩ from rfl,
        updateBlockChecked_eq habove]
      rfl

/-- What the checks of `deallocate` decide for a block of the tree. -/
theorem deallocateChecked_eq {order pos : Nat} (h : InTree 22 ⟨order, pos⟩) :
    tree.deallocateChecked (pos * 2 ^ (order + B)) order =
      if BLOCKS_IN_TREE ≤ nodeIndex 22 ⟨order, pos⟩ then .error .blockIndex
      else if tree.freeAt ⟨order, pos⟩ ≠ 0 then .error .doubleFree
      else .ok (tree.deallocate (pos * 2 ^ (order + B)) order) := by
  have hpos := nodeIndex_pos 22 ⟨order, pos⟩
  have hnode := h.nodeIndex_lt
  have horder : order ≤ 22 := h.1
  simp only [deallocateChecked, deallocate, deallocate_index, if_neg (Nat.not_lt.mpr horder)]
  split
  · rfl
  · rw [blockChecked_of_lt (by omega)]
    show (if _ then _ else _) = _
    rw [freeAt]
    split
    · rfl
    · rw [setBlockChecked_of_lt _ (by omega)]
      show updateBlocksAboveChecked _ _ _ _ >>= _ = _
      rw [(updateBlocksAboveChecked_eq h _ (by simp only; omega)).1]
      rfl

end BuddyTree

/-- Only the node of the last page of the heap is not below the length of the array. -/
theorem blocksInTree_le_nodeIndex_iff {c : Aligned.Block} (h : InTree 22 c) :
    BLOCKS_IN_TREE ≤ nodeIndex 22 c ↔ c = ⟨0, 2 ^ 22 - 1⟩ := by
  have hlast : nodeIndex 22 ⟨0, 2 ^ 22 - 1⟩ = BLOCKS_IN_TREE := by decide
  constructor
  · intro hle
    have := h.nodeIndex_lt
    have : BLOCKS_IN_TREE = 2 ^ 23 - 1 := rfl
    apply h.nodeIndex_inj ⟨by simp, by simp⟩
    omega
  · rintro rfl
    exact hlast.ge

section

variable {s t : State 12 22} {tr : List Move}

/-- The array holds `0` at a live block. -/
theorem Inv.freeAt_live (h : Inv s) {p : Nat × Nat} (hp : p ∈ s.live) :
    s.tree.freeAt (blockOf 12 p) = 0 := by
  have hmem : blockOf 12 p ∈ s.blocks := Finset.mem_image_of_mem _ hp
  rw [h.exact _ (h.tiling.inTree _ hmem), h.tiling.separate.value_of_mem hmem]

/-- While nothing is allocated a block that has been given back stays free. -/
theorem Inv.freed (h : Inv s) {b : Aligned.Block} (hfree : Free s.blocks b)
    (run : Run Step s tr t) (hall : ∀ m ∈ tr, ∀ d, m ≠ .allocate d) :
    Inv t ∧ Free t.blocks b := by
  induction run with
  | nil => exact ⟨h, hfree⟩
  | snoc run step ih =>
      obtain ⟨inv, hfree⟩ := ih fun m hm => hall m (List.mem_append_left _ hm)
      refine ⟨inv.step (by omega) step, ?_⟩
      have hlast := hall _ (List.mem_append_right _ (List.mem_singleton_self _))
      cases step with
      | allocated => exact absurd rfl (hlast _)
      | refused => exact absurd rfl (hlast _)
      | deallocated hp =>
          intro c hc
          rw [State.blocks, inv.blocks_erase hp] at hc
          exact hfree c (Finset.mem_of_mem_erase hc)

/-- The last page of the heap. -/
def lastPage : Nat × Nat := (2 ^ 34 - 2 ^ 12, 0)

/-- The node of a live block is below the length of the array unless the block is the last
page. -/
theorem Inv.blockIndex_iff (h : Inv s) {p : Nat × Nat} (hp : p ∈ s.live) :
    BLOCKS_IN_TREE ≤ nodeIndex 22 (blockOf 12 p) ↔ p = lastPage := by
  have hin := h.tiling.inTree _ (Finset.mem_image_of_mem _ hp)
  rw [blocksInTree_le_nodeIndex_iff hin]
  constructor
  · intro heq
    have horder : p.2 = 0 := congrArg Aligned.Block.order heq
    have haddr := h.aligned p hp
    rw [heq, horder] at haddr
    exact Prod.ext haddr horder
  · rintro rfl
    decide

/-- What the checks of `deallocate` decide for a live block. -/
theorem Inv.deallocateChecked_eq (h : Inv s) {ptr order : Nat} (hp : (ptr, order) ∈ s.live)
    (tree : BuddyTree 12 22) :
    tree.deallocateChecked ptr order =
      if (ptr, order) = lastPage then .error .blockIndex
      else if tree.freeAt (blockOf 12 (ptr, order)) ≠ 0 then .error .doubleFree
      else .ok (tree.deallocate ptr order) := by
  have hin : InTree 22 ⟨order, (blockOf 12 (ptr, order)).pos⟩ :=
    h.tiling.inTree _ (Finset.mem_image_of_mem _ hp)
  have haddr : ptr = (blockOf 12 (ptr, order)).pos * 2 ^ (order + 12) := h.aligned _ hp
  have hcall : tree.deallocateChecked ((blockOf 12 (ptr, order)).pos * 2 ^ (order + 12)) order =
      _ := BuddyTree.deallocateChecked_eq hin
  simp only [← h.blockIndex_iff hp]
  rwa [← haddr] at hcall

/-- In every reachable state a live block passes the checks of `deallocate`, and a second
`deallocate` without an allocation in between is caught, if and only if the block is not the
last page of the heap. -/
theorem deallocate_checked_iff (h : Reached s) {ptr order : Nat} (hp : (ptr, order) ∈ s.live) :
    (s.tree.deallocateChecked ptr order = .ok (s.tree.deallocate ptr order) ∧
      ∀ tr t, Run Step ⟨s.tree.deallocate ptr order, s.live.erase (ptr, order)⟩ tr t →
        (∀ m ∈ tr, ∀ d, m ≠ .allocate d) →
          t.tree.deallocateChecked ptr order = .error .doubleFree) ↔
      (ptr, order) ≠ lastPage := by
  have inv := h.inv
  have hmem : blockOf 12 (ptr, order) ∈ s.blocks := Finset.mem_image_of_mem _ hp
  have hin := inv.tiling.inTree _ hmem
  constructor
  · rintro ⟨hfirst, -⟩ hlast
    rw [inv.deallocateChecked_eq hp, if_pos hlast] at hfirst
    cases hfirst
  · intro hlast
    constructor
    · rw [inv.deallocateChecked_eq hp, if_neg hlast, inv.freeAt_live hp]
      rfl
    · intro tr t run hall
      have hfree : Free (s.blocks.erase (blockOf 12 (ptr, order))) (blockOf 12 (ptr, order)) :=
        inv.tiling.separate.free_erase hmem
      rw [← inv.blocks_erase hp] at hfree
      obtain ⟨inv', hfree'⟩ := (inv.deallocate hp).freed hfree run hall
      rw [inv.deallocateChecked_eq hp, if_neg hlast, inv'.exact _ hin, Aligned.value_of_free hfree']
      rfl

/-- A block of two pages at the start of the heap passes. -/
theorem deallocate_checked_iff_start : ∃ s : State 12 22, (0, 1) ∈ s.live ∧
    s.tree.deallocateChecked 0 1 = .ok (s.tree.deallocate 0 1) := by
  obtain ⟨tree₁, tree₂, h₁, h₂⟩ := allocate_pages
  have hreached : Reached ⟨tree₁, insert (0, 1) ∅⟩ :=
    ⟨_, _, ⟨_, rfl⟩, .single (.allocated h₁)⟩
  have hp : (0, 1) ∈ (⟨tree₁, insert (0, 1) ∅⟩ : State 12 22).live := Finset.mem_insert_self _ _
  exact ⟨_, hp, ((deallocate_checked_iff hreached hp).mpr (by decide)).1⟩

/-- The live blocks fill the heap up to `x`. -/
structure Filled (s : State 12 22) (x : Nat) : Prop where
  below : ∀ a, s.FreeRange 0 a → x ≤ a
  live : ∀ p ∈ s.live, p.1 + 2 ^ (12 + p.2) ≤ x

/-- The next block is taken where the live ones end. -/
theorem Filled.allocate {x d : Nat} (h : Filled s x) (hs : Reached s) (hx : 2 ^ (12 + d) ∣ x)
    (hle : x + 2 ^ (12 + d) ≤ 2 ^ 34) :
    ∃ t, Reached t ∧ Filled t (x + 2 ^ (12 + d)) ∧ (x, d) ∈ t.live := by
  have hrange : s.FreeRange d x := ⟨hx, hle, fun p hp => .inr (h.live p hp)⟩
  obtain ⟨hnone, -, hsome⟩ := allocate_lowest hs d
  obtain ⟨ptr, hptr⟩ : ∃ ptr, (s.tree.allocate d).1 = some ptr := by
    apply Option.ne_none_iff_exists'.mp
    intro hcall
    exact hnone.mp hcall x hrange
  obtain ⟨⟨hdvd, hheap, hlive⟩, hleast⟩ := hsome ptr hptr
  have hpage : 2 ^ (12 + 0) ≤ 2 ^ (12 + d) := Nat.pow_le_pow_right (by omega) (by omega)
  have hle' : x ≤ ptr := by
    apply h.below
    refine ⟨(Nat.pow_dvd_pow 2 (by omega)).trans hdvd, by omega, fun p hp => ?_⟩
    have := hlive p hp
    omega
  obtain rfl := Nat.le_antisymm hle' (hleast hrange)
  obtain ⟨s₀, tr, hinit, run⟩ := hs
  refine ⟨_, ⟨s₀, _, hinit, run.snoc (.allocated (Prod.ext hptr rfl))⟩, ⟨?_, ?_⟩,
    Finset.mem_insert_self _ _⟩
  · rintro a ⟨ha, hheap', hlive'⟩
    have hold := h.below a ⟨ha, hheap', fun p hp => hlive' p (Finset.mem_insert_of_mem hp)⟩
    have hnew := hlive' _ (Finset.mem_insert_self _ _)
    have := Nat.two_pow_pos (12 + 0)
    simp only at hnew
    omega
  · intro p hp
    obtain rfl | hp := Finset.mem_insert.mp hp
    · exact le_rfl
    · exact (h.live p hp).trans (Nat.le_add_right _ _)

/-- Halves of what is left are taken, one after the other. -/
theorem filled (k : Nat) (hk : k ≤ 22) :
    ∃ s, Reached s ∧ Filled s (2 ^ 34 - 2 ^ (34 - k)) := by
  induction k with
  | zero =>
      exact ⟨initial fun _ => ⟨0⟩, ⟨_, _, ⟨_, rfl⟩, .nil⟩, fun a _ => Nat.zero_le a,
        fun p hp => absurd hp (Finset.notMem_empty p)⟩
  | succ k ih =>
      obtain ⟨s, hs, hfilled⟩ := ih (by omega)
      have hhalf : 2 ^ (34 - k) = 2 * 2 ^ (12 + (21 - k)) := by
        rw [← Nat.pow_succ']
        congr 1
        omega
      have hnext : 2 ^ (34 - (k + 1)) = 2 ^ (12 + (21 - k)) := by
        congr 1
        omega
      have hle : 2 ^ (34 - k) ≤ 2 ^ 34 := Nat.pow_le_pow_right (by omega) (by omega)
      have hdvd : 2 ^ (12 + (21 - k)) ∣ 2 ^ 34 - 2 ^ (34 - k) :=
        Nat.dvd_sub (Nat.pow_dvd_pow 2 (by omega)) (Nat.pow_dvd_pow 2 (by omega))
      obtain ⟨t, ht, hfilled', -⟩ := hfilled.allocate hs hdvd (by omega)
      refine ⟨t, ht, ?_⟩
      rwa [show 2 ^ 34 - 2 ^ (34 - k) + 2 ^ (12 + (21 - k)) = 2 ^ 34 - 2 ^ (34 - (k + 1)) by
        omega] at hfilled'

/-- The last page is handed out, and the index check refuses to take it back. -/
theorem last_page_refused : ∃ s : State 12 22, Reached s ∧ lastPage ∈ s.live ∧
    s.tree.deallocateChecked lastPage.1 lastPage.2 = .error .blockIndex := by
  obtain ⟨s, hs, hfilled⟩ := filled 22 le_rfl
  obtain ⟨t, ht, -, hp⟩ := hfilled.allocate hs (by decide : 2 ^ (12 + 0) ∣ _) (by decide)
  have hlast : lastPage ∈ t.live := hp
  exact ⟨t, ht, hlast, ht.inv.deallocateChecked_eq hlast t.tree⟩

end

end UniAlloc.Buddy
