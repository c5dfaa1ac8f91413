import UniAlloc.SizeClass.Rounding

/-!
# Registering the runs of the classes

The runs of both tables of size classes have few pages, so that they can be registered
wherever they lie. The radix tree keeps the address of a descriptor as an `i64`.
-/

namespace UniAlloc

open Radix Slab

/-- `x as i64` of a `usize`. -/
def asI64 (x : Nat) : Int := (x : Int).bmod (2 ^ 64)

theorem asI64_emod {x : Nat} (hx : x < 2 ^ 64) : asI64 x % 2 ^ 64 = x := by
  have hmod : asI64 x % ((2 ^ 64 : Nat) : Int) = (x : Int) % ((2 ^ 64 : Nat) : Int) :=
    Int.bmod_emod
  have hpow : ((2 ^ 64 : Nat) : Int) = 2 ^ 64 := by norm_num
  rw [← hpow, hmod]
  exact Int.emod_eq_of_lt (Int.natCast_nonneg x) (Int.ofNat_lt.mpr hx)

theorem asI64_of_lt {x : Nat} (hx : x < 2 ^ 63) : asI64 x = x := by
  have hx' : x < 9223372036854775808 := hx
  refine Int.bmod_eq_of_le ?_ ?_
  · norm_num
  · norm_num
    omega

/-- `handle_rd_tree_insert`. -/
def handleRdTreeInsert (pgNum : Nat) (ptrMap : RadixTree) (idx addr : Nat) : Option RadixTree :=
  registerRun pgNum ptrMap (asI64 idx) addr

/-- The addresses of descriptors are registered as they are. -/
theorem handleRdTreeInsert_of_lt {idx : Nat} (hidx : idx < 2 ^ 63) (pgNum : Nat)
    (tree : RadixTree) (addr : Nat) : handleRdTreeInsert pgNum tree idx addr =
      SCAllocator.handleRdTreeInsert pgNum tree idx addr := by
  rw [handleRdTreeInsert, asI64_of_lt hidx, handleRdTreeInsert_eq]

/-- A number of pages that one of the tables of size classes uses. -/
def UsedPages (pgNum : Nat) : Prop :=
  ∃ i, pgNum = tcSizeClass.getNumPagesByIdx i ∨ pgNum = smallSizeClass.getNumPagesByIdx i

theorem UsedPages.le {pgNum : Nat} (h : UsedPages pgNum) : pgNum ≤ 4097 := by
  obtain ⟨i, rfl | rfl⟩ := h
  · exact tcSizeClass_sound.pages_le i
  · exact (by decide : 1 ≤ 4097)

/-- A run is found under its pages while it is registered, and nowhere else. -/
theorem registered_exactly (tree : RadixTree) (self : SCAllocator) {addr idx : Nat}
    (aligned : addr % PAGE_SIZE = 0) (hnum : 1 ≤ self.pgNum) (used : UsedPages self.pgNum)
    (bound : addr + self.pgNum * PAGE_SIZE ≤ 2 ^ 48) (hidx : idx < 2 ^ 64) :
    asI64 idx % 2 ^ 64 = idx ∧
    ∃ inserted removed, handleRdTreeInsert self.pgNum tree idx addr = some inserted ∧
      (∀ b < 2 ^ 48, TreeNode.getMut inserted (pageKey b) =
        if addr ≤ b ∧ b < addr + self.pgNum * PAGE_SIZE then some (asI64 idx)
        else TreeNode.getMut tree (pageKey b)) ∧
      self.handleRdTreeRemove inserted addr = some removed ∧
      ∀ b < 2 ^ 48, TreeNode.getMut removed (pageKey b) =
        if addr ≤ b ∧ b < addr + self.pgNum * PAGE_SIZE then some 0
        else TreeNode.getMut tree (pageKey b) := by
  simp only [PAGE_SIZE] at aligned bound ⊢
  generalize hself : self.pgNum = num at hnum used bound ⊢
  have hpages : addr / 4096 + num ≤ 2 ^ 36 := by omega
  obtain ⟨inserted, hinsert, entry⟩ := registerRun_spec tree (asI64 idx) aligned hnum hpages
    (pieceFits_insert used.le)
  obtain ⟨removed, hremove, entry'⟩ := unregisterRun_spec inserted self hself aligned hnum hpages
    (pieceFits_remove used.le)
  have hrange : ∀ b, (addr ≤ b ∧ b < addr + num * 4096) ↔
      (addr / 4096 ≤ b / 4096 ∧ b / 4096 < addr / 4096 + num) := by omega
  refine ⟨asI64_emod hidx, inserted, removed, hinsert, fun b hb => ?_, hremove, fun b hb => ?_⟩
  · rw [RadixTree.getMut_pageKey _ hb, RadixTree.getMut_pageKey _ hb, entry]
    simp only [hrange]
    split <;> rfl
  · rw [RadixTree.getMut_pageKey _ hb, RadixTree.getMut_pageKey _ hb, entry', entry]
    simp only [hrange]
    split <;> rfl

/-- A run of `64` pages across a multiple of `2 ^ 16` pages. -/
theorem registered_exactly_across : asI64 0x7f0000001000 % 2 ^ 64 = (0x7f0000001000 : Nat) ∧
    ∃ inserted removed,
      handleRdTreeInsert 64 TreeNode.zeroed 0x7f0000001000 0xfffe000 = some inserted ∧
      (∀ b < 2 ^ 48, TreeNode.getMut inserted (pageKey b) =
        if 0xfffe000 ≤ b ∧ b < 0xfffe000 + 64 * PAGE_SIZE then some (asI64 0x7f0000001000)
        else TreeNode.getMut (TreeNode.zeroed : RadixTree) (pageKey b)) ∧
      SCAllocator.handleRdTreeRemove ⟨0, 0, 0, 0, 0, 64, 9, 28032⟩ inserted 0xfffe000 =
        some removed ∧
      ∀ b < 2 ^ 48, TreeNode.getMut removed (pageKey b) =
        if 0xfffe000 ≤ b ∧ b < 0xfffe000 + 64 * PAGE_SIZE then some 0
        else TreeNode.getMut (TreeNode.zeroed : RadixTree) (pageKey b) :=
  registered_exactly TreeNode.zeroed ⟨0, 0, 0, 0, 0, 64, 9, 28032⟩ (by decide) (by decide)
    ⟨63, .inl (by decide)⟩ (by norm_num [PAGE_SIZE]) (by norm_num)

end UniAlloc
