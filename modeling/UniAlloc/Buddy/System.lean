import Mathlib.Data.Finset.Image
import Mathlib.Order.Bounds.Basic
import UniAlloc.Buddy.Canonical

/-!
# Every history of a buddy tree

Whatever blocks are taken and given back, the array of the tree is determined by the
blocks that are out. The parameters are those of `new` on x86_64.
-/

namespace UniAlloc.Buddy

open Aligned (Covered Free Separate value)

theorem initialWrites_eq : BuddyTree.initialWrites =
    (List.range 23).map fun k => (2 ^ k - 1, 23 - k, 2 ^ k) := by
  decide

/-- The first writes settle the first levels. -/
theorem writes_level {B M : Nat} (tree : BuddyTree B M) {n k i : Nat} (hk : k < n)
    (hi : i < 2 ^ k) :
    ((((List.range n).map fun k => (2 ^ k - 1, 23 - k, 2 ^ k)).foldl
      (fun tree w => tree.writeBytes w.1 w.2.1 w.2.2) tree).block (2 ^ k + i - 1)).orderFree =
        23 - k := by
  induction n with
  | zero => omega
  | succ n ih =>
      rw [List.range_succ, List.map_append, List.foldl_append]
      simp only [List.map_cons, List.map_nil, List.foldl_cons, List.foldl_nil]
      obtain hlt | rfl := Nat.lt_succ_iff_lt_or_eq.mp hk
      · have hpow : 2 ^ (k + 1) ≤ 2 ^ n := Nat.pow_le_pow_right (by omega) hlt
        rw [Nat.pow_succ] at hpow
        rw [← ih hlt, BuddyTree.block, BuddyTree.block, BuddyTree.writeBytes]
        exact congrArg Block.orderFree (if_neg (by omega))
      · have := Nat.two_pow_pos k
        simp only [BuddyTree.block, BuddyTree.writeBytes]
        rw [if_pos (by omega)]

theorem new_exact {B : Nat} (flatBlocks : Nat → Block) :
    (BuddyTree.new flatBlocks : BuddyTree B 22).Exact ∅ := by
  intro c hc
  obtain ⟨horder, hpos⟩ := hc
  rw [Aligned.value_of_free fun d hd => absurd hd (Finset.notMem_empty d), BuddyTree.freeAt,
    BuddyTree.new, initialWrites_eq, nodeIndex, writes_level _ (by omega) hpos]
  omega

section

variable {B M : Nat} {s t : State B M} {m : Move}

/-- The aligned block of a pointer and an order. -/
def blockOf (B : Nat) (p : Nat × Nat) : Aligned.Block := ⟨p.2, p.1 / 2 ^ (p.2 + B)⟩

/-- The aligned blocks that are out. -/
def State.blocks (s : State B M) : Finset Aligned.Block := s.live.image (blockOf B)

/-- The array is right and the blocks that are out tile a part of the heap. -/
structure Inv (s : State B M) : Prop where
  exact : s.tree.Exact s.blocks
  tiling : Tiling M s.blocks
  aligned : ∀ p ∈ s.live, p.1 = (blockOf B p).pos * 2 ^ (p.2 + B)

theorem blockOf_mul (i d : Nat) : blockOf B (i * 2 ^ (d + B), d) = ⟨d, i⟩ := by
  rw [blockOf, Nat.mul_div_cancel _ (Nat.two_pow_pos _)]

theorem Inv.blockOf_inj (h : Inv s) {p q : Nat × Nat} (hp : p ∈ s.live) (hq : q ∈ s.live)
    (he : blockOf B p = blockOf B q) : p = q := by
  have horder : p.2 = q.2 := congrArg Aligned.Block.order he
  refine Prod.ext ?_ horder
  rw [h.aligned p hp, h.aligned q hq, he, horder]

theorem Inv.blocks_erase (h : Inv s) {p : Nat × Nat} (hp : p ∈ s.live) :
    (s.live.erase p).image (blockOf B) = s.blocks.erase (blockOf B p) := by
  ext c
  simp only [Finset.mem_image, Finset.mem_erase, State.blocks]
  constructor
  · rintro ⟨q, ⟨hne, hq⟩, rfl⟩
    exact ⟨fun he => hne (h.blockOf_inj hq hp he), q, hq, rfl⟩
  · rintro ⟨hne, q, hq, rfl⟩
    exact ⟨q, ⟨fun he => hne (he ▸ rfl), hq⟩, rfl⟩

theorem Inv.deallocate (h : Inv s) {p : Nat × Nat} (hp : p ∈ s.live) :
    Inv (⟨s.tree.deallocate p.1 p.2, s.live.erase p⟩ : State B M) := by
  have hmem : blockOf B p ∈ s.blocks := Finset.mem_image_of_mem _ hp
  have hexact := BuddyTree.deallocate_exact h.exact h.tiling.separate hmem (h.tiling.inTree _ hmem)
  constructor
  · rw [State.blocks, h.blocks_erase hp, h.aligned p hp]
    exact hexact
  · rw [State.blocks, h.blocks_erase hp]
    exact ⟨fun c hc => h.tiling.inTree c (Finset.mem_of_mem_erase hc), h.tiling.separate.erase⟩
  · exact fun q hq => h.aligned q (Finset.mem_of_mem_erase hq)

/-- Every call keeps the array right. -/
theorem Inv.step (hM : M < 63) (h : Inv s) (hstep : Step s m t) : Inv t := by
  cases hstep with
  | allocated hrun =>
      obtain ⟨i, rfl, hin, hfree, -, hexact⟩ :=
        BuddyTree.allocate_some h.exact h.tiling hM hrun
      constructor
      · rwa [State.blocks, Finset.image_insert, blockOf_mul]
      · rw [State.blocks, Finset.image_insert, blockOf_mul]
        refine ⟨fun c hc => ?_, h.tiling.separate.insert hfree⟩
        obtain rfl | hc := Finset.mem_insert.mp hc
        · exact hin
        · exact h.tiling.inTree c hc
      · intro p hp
        obtain rfl | hp := Finset.mem_insert.mp hp
        · rw [blockOf_mul]
        · exact h.aligned p hp
  | refused hrun =>
      obtain rfl := BuddyTree.allocate_none hrun
      exact h
  | deallocated hp => exact h.deallocate hp

theorem inv_initial {B : Nat} (flatBlocks : Nat → Block) :
    Inv (initial flatBlocks : State B 22) := by
  constructor
  · exact new_exact flatBlocks
  · exact ⟨fun c hc => absurd hc (Finset.notMem_empty c),
      fun c hc => absurd hc (Finset.notMem_empty c)⟩
  · exact fun p hp => absurd hp (Finset.notMem_empty p)

end

/-- The states of a tree with the parameters of the heap, from whatever memory it was built
in. -/
def Reached (s : State 12 22) : Prop :=
  Transition.Reachable (fun s => ∃ flatBlocks, s = initial flatBlocks) Step s

theorem Reached.inv {s : State 12 22} (h : Reached s) : Inv s := by
  refine h.invariant ?_ fun u m v hu hstep => hu.step (by omega) hstep
  rintro s ⟨flatBlocks, rfl⟩
  exact inv_initial flatBlocks

/-- What the array of a state says about each node: `0` if its subtree has no free block and
otherwise one more than the order of the largest, unless the node is strictly inside a block
that is out, when it is as if all were free. -/
structure Canonical {B M : Nat} (s : State B M) : Prop where
  aligned : ∀ p ∈ s.live, 2 ^ (p.2 + B) ∣ p.1
  apart : ∀ p ∈ s.live, ∀ q ∈ s.live, p ≠ q → (blockOf B p).Apart (blockOf B q)
  none : ∀ c, InTree M c → ¬Covered s.blocks c →
    (s.tree.freeAt c = 0 ↔ ¬∃ d : Aligned.Block, d.Within c ∧ Free s.blocks d)
  largest : ∀ c, InTree M c → ¬Covered s.blocks c → s.tree.freeAt c ≠ 0 →
    IsGreatest {k | ∃ d : Aligned.Block, d.Within c ∧ Free s.blocks d ∧ d.order + 1 = k}
      (s.tree.freeAt c)
  full : ∀ c, InTree M c → ¬Covered s.blocks c →
    (s.tree.freeAt c = c.order + 1 ↔ Free s.blocks c)
  inside : ∀ c, InTree M c → Covered s.blocks c → s.tree.freeAt c = c.order + 1

theorem Inv.canonical {B M : Nat} {s : State B M} (h : Inv s) : Canonical s := by
  have hopen {c : Aligned.Block} (hc : InTree M c) (hcov : ¬Covered s.blocks c) {k : Nat} :
      k < s.tree.freeAt c ↔
        ∃ d : Aligned.Block, k ≤ d.order ∧ d.Within c ∧ Free s.blocks d := by
    rw [h.exact c hc, Aligned.value_of_not_covered hcov]
    exact Aligned.lt_largest_iff hcov
  constructor
  · intro p hp
    exact Dvd.intro_left _ (h.aligned p hp).symm
  · intro p hp q hq hne
    exact h.tiling.separate _ (Finset.mem_image_of_mem _ hp) _ (Finset.mem_image_of_mem _ hq)
      fun he => hne (h.blockOf_inj hp hq he)
  · intro c hc hcov
    rw [← Nat.le_zero, ← Nat.not_lt, hopen hc hcov]
    simp only [Nat.zero_le, true_and]
  · intro c hc hcov hne
    obtain ⟨k, hk⟩ := Nat.exists_eq_succ_of_ne_zero hne
    constructor
    · obtain ⟨d, hd, hin, hfree⟩ := (hopen hc hcov (k := k)).mp (by omega)
      have := (hopen hc hcov).mpr ⟨d, le_rfl, hin, hfree⟩
      exact ⟨d, hin, hfree, by omega⟩
    · rintro _ ⟨d, hin, hfree, rfl⟩
      exact (hopen hc hcov).mpr ⟨d, le_rfl, hin, hfree⟩
  · intro c hc hcov
    rw [h.exact c hc, Aligned.value_of_not_covered hcov, Aligned.largest_eq_top_iff,
      Aligned.free_iff hcov]
  · intro c hc hcov
    rw [h.exact c hc]
    exact if_pos hcov

/-- Every index of the array is a node. -/
theorem index_node {j : Nat} (hj : j < BLOCKS_IN_TREE) :
    ∃ c, InTree 22 c ∧ j = nodeIndex 22 c - 1 := by
  have hj : j + 1 < 2 ^ 23 := by
    have : BLOCKS_IN_TREE = 2 ^ 23 - 1 := rfl
    omega
  have hlog := Nat.log2_lt (n := j + 1) (k := 23) (by omega) |>.mpr hj
  have hle := Nat.log2_self_le (n := j + 1) (by omega)
  have hlt := Nat.lt_log2_self (n := j + 1)
  rw [Nat.pow_succ] at hlt
  refine ⟨⟨22 - (j + 1).log2, j + 1 - 2 ^ (j + 1).log2⟩, ⟨?_, ?_⟩, ?_⟩
  · exact Nat.sub_le _ _
  · simp only
    rw [Nat.sub_sub_self (by omega)]
    omega
  · simp only [nodeIndex]
    rw [Nat.sub_sub_self (by omega)]
    omega

/-- Two arrays that are right about the same blocks are the same. -/
theorem BuddyTree.Exact.agree {B B' : Nat} {tree : BuddyTree B 22} {tree' : BuddyTree B' 22}
    {taken : Finset Aligned.Block} (h : tree.Exact taken) (h' : tree'.Exact taken) {j : Nat}
    (hj : j < BLOCKS_IN_TREE) : tree.flatBlocks j = tree'.flatBlocks j := by
  obtain ⟨c, hc, rfl⟩ := index_node hj
  have := (h c hc).trans (h' c hc).symm
  rwa [BuddyTree.freeAt, BuddyTree.freeAt, BuddyTree.block, BuddyTree.block,
    ← Block.mk.injEq] at this

/-- Blocks given back one after the other, each of them out. -/
theorem Inv.free_all {B M : Nat} {s : State B M} (h : Inv s) {l : List (Nat × Nat)}
    (hl : l.Nodup) (hlive : l.toFinset = s.live) :
    (l.foldl (fun tree p => tree.deallocate p.1 p.2) s.tree).Exact ∅ := by
  induction l generalizing s with
  | nil =>
      have := h.exact
      rwa [State.blocks, ← hlive] at this
  | cons p l ih =>
      obtain ⟨hp, hl⟩ := List.nodup_cons.mp hl
      have hmem : p ∈ s.live := by
        rw [← hlive]
        simp
      refine ih (h.deallocate hmem) hl ?_
      simp only [← hlive, List.toFinset_cons]
      exact (Finset.erase_insert fun h => hp (List.mem_toFinset.mp h)).symm

/-- In every history the array is a function of the blocks that are out: each node says which
blocks below it are free, trees with the same blocks out are equal, and once all blocks are
given back, in any order, the array is the one `new` wrote. -/
theorem tree_canonical {s : State 12 22} (h : Reached s) :
    Canonical s ∧
      (∀ s', Reached s' → s'.live = s.live →
        ∀ j < BLOCKS_IN_TREE, s'.tree.flatBlocks j = s.tree.flatBlocks j) ∧
      ∀ l : List (Nat × Nat), l.Nodup → l.toFinset = s.live → ∀ flatBlocks,
        ∀ j < BLOCKS_IN_TREE,
          (l.foldl (fun tree p => tree.deallocate p.1 p.2) s.tree).flatBlocks j =
            (BuddyTree.new flatBlocks : BuddyTree 12 22).flatBlocks j := by
  refine ⟨h.inv.canonical, ?_, ?_⟩
  · intro s' h' hlive j hj
    have hexact := h'.inv.exact
    rw [State.blocks, hlive] at hexact
    exact hexact.agree h.inv.exact hj
  · intro l hl hlive flatBlocks j hj
    exact (h.inv.free_all hl hlive).agree (new_exact flatBlocks) hj

/-- The first two blocks of a new tree. -/
theorem allocate_pages : ∃ tree₁ tree₂ : BuddyTree 12 22,
    (BuddyTree.new fun _ => ⟨0⟩).allocate 1 = (some 0, tree₁) ∧
      tree₁.allocate 0 = (some 0x2000, tree₂) := by
  have h₁ : ((BuddyTree.new fun _ => ⟨0⟩ : BuddyTree 12 22).allocate 1).1 = some 0 := by
    decide +kernel
  have h₂ : (((BuddyTree.new fun _ => ⟨0⟩ : BuddyTree 12 22).allocate 1).2.allocate 0).1 =
      some 0x2000 := by
    decide +kernel
  generalize hrun₁ : (BuddyTree.new fun _ => ⟨0⟩ : BuddyTree 12 22).allocate 1 = result₁ at h₁ h₂
  generalize hrun₂ : result₁.2.allocate 0 = result₂ at h₂
  refine ⟨result₁.2, result₂.2, ?_, ?_⟩
  · rw [← h₁]
  · rw [hrun₂, ← h₂]

/-- A block of two pages and one of a page are taken, and the first is given back. -/
theorem tree_canonical_pages : ∃ s : State 12 22, s.live = {(0x2000, 0)} ∧ Canonical s ∧
    ((s.tree.deallocate 0x2000 0).block 0).orderFree = 23 := by
  obtain ⟨tree₁, tree₂, h₁, h₂⟩ := allocate_pages
  let live : Finset (Nat × Nat) := insert (0x2000, 0) (insert (0, 1) ∅)
  have step₁ : Step (initial fun _ => ⟨0⟩) (.allocate 1) ⟨tree₁, insert (0, 1) ∅⟩ := .allocated h₁
  have step₂ : Step ⟨tree₁, insert (0, 1) ∅⟩ (.allocate 0) ⟨tree₂, live⟩ := .allocated h₂
  have hout : (0, 1) ∈ live := by decide
  have step₃ : Step ⟨tree₂, live⟩ (.deallocate 0 1)
      ⟨tree₂.deallocate 0 1, live.erase (0, 1)⟩ := .deallocated hout
  have hreached : Reached ⟨tree₂.deallocate 0 1, live.erase (0, 1)⟩ :=
    ⟨_, _, ⟨_, rfl⟩, ((Transition.Run.nil.snoc step₁).snoc step₂).snoc step₃⟩
  obtain ⟨hcanonical, -, hfree⟩ := tree_canonical hreached
  have hlive : live.erase (0, 1) = {(0x2000, 0)} := by decide
  have hroot := hfree [(0x2000, 0)] (by decide) hlive.symm (fun _ => ⟨0⟩) 0 (by decide)
  have hnew : ((BuddyTree.new fun _ => ⟨0⟩ : BuddyTree 12 22).flatBlocks 0).orderFree = 23 := by
    decide +kernel
  rw [List.foldl_cons, List.foldl_nil] at hroot
  refine ⟨_, hlive, hcanonical, ?_⟩
  rw [BuddyTree.block, hroot, hnew]

end UniAlloc.Buddy
