import UniAlloc.Slab.Basic

/-!
# Registering runs in the radix tree

A run of pages is inserted in two pieces if it crosses a multiple of `2 ^ 16` pages, and
removed in two pieces if it crosses a multiple of `4096` pages. A bottom node of the tree
covers `2 ^ 18` pages, so that the first piece never leaves its node.
-/

namespace UniAlloc.Slab

open Radix

/-- The second piece of a registered run, after `rem` pages, stays below one bottom
node. The first piece always does. -/
def PieceFits (first rem num : Nat) : Prop :=
  num ≤ rem ∨ (first + rem) % 2 ^ 18 + (num - rem) ≤ 2 ^ 18

/-- `handle_rd_tree_insert` of the value `v`. -/
def registerRun (pgNum : Nat) (ptrMap : RadixTree) (v : Int) (addr : Nat) : Option RadixTree :=
  let num := 2 ^ 16
  let rem := num - (addr >>> PAGE_BITS &&& num - 1)
  let ptr := align12k addr
  if pgNum ≤ rem then TreeNode.insert ptrMap (pageKey ptr) v pgNum
  else do
    let ptrMap ← TreeNode.insert ptrMap (pageKey ptr) v rem
    TreeNode.insert ptrMap (pageKey (ptr + 4096 * rem)) v (pgNum - rem)

theorem handleRdTreeInsert_eq (pgNum : Nat) (tree : RadixTree) (idx addr : Nat) :
    SCAllocator.handleRdTreeInsert pgNum tree idx addr = registerRun pgNum tree idx addr := rfl

variable {a num : Nat}

theorem align12k_lt (ha : a < 2 ^ 48) : align12k a < 2 ^ 48 :=
  lt_of_le_of_lt Nat.and_le_left ha

theorem align12k_page (ha : a < 2 ^ 48) : align12k a / 4096 = a / 4096 := by
  have h : align12k a = a &&& (2 ^ 64 - 2 ^ 12) := rfl
  rw [h, ← Nat.shiftRight_eq_div_pow a 12, ← Nat.shiftRight_eq_div_pow _ 12,
    Nat.shiftRight_and_distrib, show (2 ^ 64 - 2 ^ 12) >>> 12 = 2 ^ 52 - 1 by decide,
    Nat.and_two_pow_sub_one_eq_mod]
  have : a >>> 12 < 2 ^ 52 := by
    rw [Nat.shiftRight_eq_div_pow]
    omega
  exact Nat.mod_eq_of_lt this

theorem getMut_align12k (tree : RadixTree) (ha : a < 2 ^ 48) :
    TreeNode.getMut tree (pageKey (align12k a)) = some (tree.entry (a / PAGE_SIZE)) := by
  rw [RadixTree.getMut_pageKey tree (align12k_lt ha), align12k_page ha]
  rfl

/-- The two pieces together. -/
theorem entry_pieces {tree tree₁ tree₂ : RadixTree} {first rem : Nat} {v : Int} (hrem : rem < num)
    (h₁ : ∀ p, tree₁.entry p = if first ≤ p ∧ p < first + rem then v else tree.entry p)
    (h₂ : ∀ p, tree₂.entry p =
      if first + rem ≤ p ∧ p < first + rem + (num - rem) then v else tree₁.entry p) (p : Nat) :
    tree₂.entry p = if first ≤ p ∧ p < first + num then v else tree.entry p := by
  rw [h₂, h₁]
  split_ifs <;> first | rfl | omega

theorem insertRem_eq (a : Nat) : a >>> PAGE_BITS &&& 2 ^ 16 - 1 = a / 4096 % 2 ^ 16 := by
  rw [Nat.and_two_pow_sub_one_eq_mod, PAGE_BITS, Nat.shiftRight_eq_div_pow]

theorem removeRem_eq (a : Nat) : (a >>> PAGE_BITS) % 4096 = a / 4096 % 4096 := by
  rw [PAGE_BITS, Nat.shiftRight_eq_div_pow]

theorem registerRun_spec (tree : RadixTree) (v : Int) (aligned : a % 4096 = 0) (hnum : 0 < num)
    (bound : a / 4096 + num ≤ 2 ^ 36)
    (fits : PieceFits (a / 4096) (2 ^ 16 - a / 4096 % 2 ^ 16) num) :
    ∃ tree', registerRun num tree v a = some tree' ∧
      ∀ p, tree'.entry p = if a / 4096 ≤ p ∧ p < a / 4096 + num then v else tree.entry p := by
  have hlt : a < 2 ^ 48 := by omega
  have hpage := align12k_page hlt
  simp only [registerRun, insertRem_eq]
  rw [PieceFits] at fits
  generalize hr : 2 ^ 16 - a / 4096 % 2 ^ 16 = rem at fits ⊢
  split
  · next hle =>
      have := RadixTree.insert_pageKey (n := num) tree v (align12k_lt hlt) (by omega)
      rwa [hpage] at this
  · next hgt =>
      have hsecond : (align12k a + 4096 * rem) / 4096 = a / 4096 + rem := by omega
      obtain ⟨tree₁, h₁, entry₁⟩ := RadixTree.insert_pageKey (n := rem) tree v
        (align12k_lt hlt) (by omega)
      obtain ⟨tree₂, h₂, entry₂⟩ := RadixTree.insert_pageKey (n := num - rem) tree₁ v
        (show align12k a + 4096 * rem < 2 ^ 48 by omega) (by omega)
      rw [hpage] at entry₁
      rw [hsecond] at entry₂
      refine ⟨tree₂, ?_, entry_pieces (by omega) entry₁ entry₂⟩
      rw [h₁]
      exact h₂

/-- A run whose second piece leaves a bottom node cannot be registered. -/
theorem registerRun_eq_none (tree : RadixTree) (v : Int) (aligned : a % 4096 = 0) (hnum : 0 < num)
    (bound : a / 4096 + num ≤ 2 ^ 36)
    (misfit : ¬PieceFits (a / 4096) (2 ^ 16 - a / 4096 % 2 ^ 16) num) :
    registerRun num tree v a = none := by
  have hlt : a < 2 ^ 48 := by omega
  have hpage := align12k_page hlt
  simp only [registerRun, insertRem_eq]
  rw [PieceFits] at misfit
  generalize hr : 2 ^ 16 - a / 4096 % 2 ^ 16 = rem at misfit ⊢
  rw [if_neg (by omega)]
  have hsecond : (align12k a + 4096 * rem) / 4096 = a / 4096 + rem := by omega
  obtain ⟨tree₁, h₁, -⟩ := RadixTree.insert_pageKey (n := rem) tree v (align12k_lt hlt)
    (by omega)
  rw [h₁]
  exact RadixTree.insert_pageKey_eq_none tree₁ v (by omega) (by omega) (by omega)

theorem unregisterRun_spec (tree : RadixTree) (self : SCAllocator) (hself : self.pgNum = num)
    (aligned : a % 4096 = 0) (hnum : 0 < num) (bound : a / 4096 + num ≤ 2 ^ 36)
    (fits : PieceFits (a / 4096) (4096 - a / 4096 % 4096) num) :
    ∃ tree', self.handleRdTreeRemove tree a = some tree' ∧
      ∀ p, tree'.entry p = if a / 4096 ≤ p ∧ p < a / 4096 + num then 0 else tree.entry p := by
  subst hself
  have hlt : a < 2 ^ 48 := by omega
  have hpage := align12k_page hlt
  simp only [SCAllocator.handleRdTreeRemove, removeRem_eq]
  rw [PieceFits] at fits
  generalize hr : 4096 - a / 4096 % 4096 = rem at fits ⊢
  split
  · next hle =>
      have := RadixTree.remove_pageKey (n := self.pgNum) tree (align12k_lt hlt) (by omega)
      rwa [hpage] at this
  · next hgt =>
      have hsecond : (align12k a + 4096 * rem) / 4096 = a / 4096 + rem := by omega
      obtain ⟨tree₁, h₁, entry₁⟩ := RadixTree.remove_pageKey (n := rem) tree
        (align12k_lt hlt) (by omega)
      obtain ⟨tree₂, h₂, entry₂⟩ := RadixTree.remove_pageKey (n := self.pgNum - rem) tree₁
        (show align12k a + 4096 * rem < 2 ^ 48 by omega) (by omega)
      rw [hpage] at entry₁
      rw [hsecond] at entry₂
      refine ⟨tree₂, ?_, entry_pieces (by omega) entry₁ entry₂⟩
      rw [h₁]
      exact h₂

/-- A registered run whose second piece leaves a bottom node cannot be cleared. -/
theorem unregisterRun_eq_none (tree : RadixTree) (self : SCAllocator) (hself : self.pgNum = num)
    (aligned : a % 4096 = 0) (hnum : 0 < num) (bound : a / 4096 + num ≤ 2 ^ 36)
    (held : ∀ p, a / 4096 ≤ p → p < a / 4096 + num → tree.entry p ≠ 0)
    (misfit : ¬PieceFits (a / 4096) (4096 - a / 4096 % 4096) num) :
    self.handleRdTreeRemove tree a = none := by
  subst hself
  have hlt : a < 2 ^ 48 := by omega
  have hpage := align12k_page hlt
  simp only [SCAllocator.handleRdTreeRemove, removeRem_eq]
  rw [PieceFits] at misfit
  generalize hr : 4096 - a / 4096 % 4096 = rem at misfit ⊢
  rw [if_neg (by omega)]
  have hsecond : (align12k a + 4096 * rem) / 4096 = a / 4096 + rem := by omega
  obtain ⟨tree₁, h₁, entry₁⟩ := RadixTree.remove_pageKey (n := rem) tree (align12k_lt hlt)
    (by omega)
  rw [h₁]
  refine RadixTree.remove_pageKey_eq_none tree₁ (by omega) (by omega) (by omega) ?_
  rw [hsecond, entry₁, if_neg (by omega)]
  exact held _ (by omega) (by omega)

/-- Runs of up to `4097` pages can be anywhere. -/
theorem pieceFits_insert {first : Nat} (h : num ≤ 4097) :
    PieceFits first (2 ^ 16 - first % 2 ^ 16) num := by
  rw [PieceFits]
  omega

theorem pieceFits_remove {first : Nat} (h : num ≤ 4097) :
    PieceFits first (4096 - first % 4096) num := by
  rw [PieceFits]
  omega

end UniAlloc.Slab
