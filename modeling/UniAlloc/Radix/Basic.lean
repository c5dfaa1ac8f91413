import Mathlib.Tactic

/-!
# The two-level radix tree

The tree maps page numbers to `i64` values. A key carries the page number in its
upper 36 bits: the head node consumes the first 18 of them and the bottom node
the last 18. Bottom nodes are mapped on the first insertion below them, and
mappings are zero filled. It is assumed that they succeed. Indexing a node out of
bounds panics, which is `none`.
-/

namespace UniAlloc.Radix

/-- Nodes of the tree. `zeroed` is a freshly mapped node. -/
class TreeNode (V : Type) where
  zeroed : V
  insert : V → Nat → Int → Nat → Option V
  remove : V → Nat → Nat → Option V
  getMut : V → Nat → Option Int

/-- `(mask & k) >> 46` with `mask = !((1 << 46) - 1)`. It is below `2 ^ 18`. -/
def index (k : Nat) : Nat := (k &&& (2 ^ 64 - 2 ^ 46)) >>> 46

/-- `k << 18` on `usize`. -/
def nextKey (k : Nat) : Nat := (k <<< 18) % 2 ^ 64

/-- `addr << 16` on `usize`: the key of the page of an address. -/
def pageKey (addr : Nat) : Nat := (addr <<< 16) % 2 ^ 64

structure RadixBottomNode where
  nodes : Nat → Int

namespace RadixBottomNode

/-- `for i in 0..n { self.nodes[idx + i] = v }`. -/
def fill (idx : Nat) (v : Int) : Nat → RadixBottomNode → Option RadixBottomNode
  | 0, node => some node
  | n + 1, node => do
      let node ← fill idx v n node
      if idx + n < 2 ^ 18 then some ⟨Function.update node.nodes (idx + n) v⟩ else none

instance : TreeNode RadixBottomNode where
  zeroed := ⟨fun _ => 0⟩
  insert node k v n := fill (index k) v n node
  remove node k n := fill (index k) 0 n node
  getMut node k := if index k < 2 ^ 18 then some (node.nodes (index k)) else none

/-- A fill that stays inside the node. -/
theorem fill_eq_some {idx n : Nat} (v : Int) (node : RadixBottomNode) (fits : idx + n ≤ 2 ^ 18) :
    ∃ node', fill idx v n node = some node' ∧
      ∀ i, node'.nodes i = if idx ≤ i ∧ i < idx + n then v else node.nodes i := by
  induction n with
  | zero => exact ⟨node, rfl, fun i => (if_neg (by omega)).symm⟩
  | succ n ih =>
      obtain ⟨node', hfill, hnode⟩ := ih (by omega)
      refine ⟨⟨Function.update node'.nodes (idx + n) v⟩, ?_, fun i => ?_⟩
      · rw [fill, hfill]
        exact if_pos (by omega)
      · by_cases hi : i = idx + n
        · subst hi
          simp only [Function.update_self]
          rw [if_pos (by omega)]
        · simp only [Function.update_of_ne hi, hnode]
          simp only [show (idx ≤ i ∧ i < idx + n) ↔ (idx ≤ i ∧ i < idx + (n + 1)) by omega]

/-- A fill that leaves the node panics. -/
theorem fill_eq_none {idx n : Nat} (v : Int) (node : RadixBottomNode) (hn : 0 < n)
    (beyond : 2 ^ 18 < idx + n) : fill idx v n node = none := by
  obtain ⟨n, rfl⟩ : ∃ m, n = m + 1 := ⟨n - 1, by omega⟩
  have hout : ¬idx + n < 2 ^ 18 := by omega
  cases hfill : fill idx v n node with
  | none => simp [fill, hfill]
  | some node' =>
      rw [fill, hfill]
      exact if_neg hout

end RadixBottomNode

structure RadixNodeHead (V : Type) where
  nodes : Nat → Option V

namespace RadixNodeHead

variable {V : Type} [TreeNode V]

/-- The node below index `idx` for an insertion, mapped if it is missing. -/
def child (head : RadixNodeHead V) (idx : Nat) : V := (head.nodes idx).getD TreeNode.zeroed

instance : TreeNode (RadixNodeHead V) where
  zeroed := ⟨fun _ => none⟩
  insert head k v n := do
    let node ← TreeNode.insert (head.child (index k)) (nextKey k) v n
    some ⟨Function.update head.nodes (index k) (some node)⟩
  remove head k n :=
    match head.nodes (index k) with
    | none => some head
    | some node => do
        let node ← TreeNode.remove node (nextKey k) n
        some ⟨Function.update head.nodes (index k) (some node)⟩
  getMut head k :=
    match head.nodes (index k) with
    | none => some 0
    | some node => TreeNode.getMut node (nextKey k)

end RadixNodeHead

abbrev RadixTree := RadixNodeHead RadixBottomNode

/-- The value the tree holds for a page. -/
def RadixTree.entry (tree : RadixTree) (page : Nat) : Int :=
  (tree.child (page / 2 ^ 18)).nodes (page % 2 ^ 18)

theorem index_eq {k : Nat} (hk : k < 2 ^ 64) : index k = k / 2 ^ 46 := by
  rw [index, Nat.shiftRight_and_distrib, Nat.shiftRight_eq_div_pow,
    show (2 ^ 64 - 2 ^ 46) >>> 46 = 2 ^ 18 - 1 by decide, Nat.and_two_pow_sub_one_eq_mod]
  exact Nat.mod_eq_of_lt (by omega)

theorem index_pageKey {addr : Nat} (haddr : addr < 2 ^ 48) :
    index (pageKey addr) = addr / 4096 / 2 ^ 18 := by
  have hkey : pageKey addr < 2 ^ 64 := Nat.mod_lt _ (by decide)
  rw [index_eq hkey, pageKey, Nat.shiftLeft_eq]
  omega

theorem index_nextKey_pageKey {addr : Nat} (haddr : addr < 2 ^ 48) :
    index (nextKey (pageKey addr)) = addr / 4096 % 2 ^ 18 := by
  have hkey : nextKey (pageKey addr) < 2 ^ 64 := Nat.mod_lt _ (by decide)
  rw [index_eq hkey, nextKey, pageKey, Nat.shiftLeft_eq, Nat.shiftLeft_eq]
  omega

namespace RadixTree

variable (tree : RadixTree) {addr n : Nat}

@[simp] theorem entry_zeroed (page : Nat) :
    entry (TreeNode.zeroed : RadixTree) page = 0 := rfl

theorem getMut_pageKey (haddr : addr < 2 ^ 48) :
    TreeNode.getMut tree (pageKey addr) = some (tree.entry (addr / 4096)) := by
  simp only [TreeNode.getMut, index_pageKey haddr, index_nextKey_pageKey haddr, entry,
    RadixNodeHead.child]
  cases tree.nodes (addr / 4096 / 2 ^ 18) with
  | none => rfl
  | some node => exact if_pos (Nat.mod_lt _ (by decide))

/-- The entries after a run of pages below one bottom node has been filled. -/
theorem entry_update {node : RadixBottomNode} {v : Int} {first : Nat}
    (fits : first % 2 ^ 18 + n ≤ 2 ^ 18)
    (hnode : ∀ i, node.nodes i = if first % 2 ^ 18 ≤ i ∧ i < first % 2 ^ 18 + n then v
      else (tree.child (first / 2 ^ 18)).nodes i) (page : Nat) :
    entry ⟨Function.update tree.nodes (first / 2 ^ 18) (some node)⟩ page =
      if first ≤ page ∧ page < first + n then v else tree.entry page := by
  by_cases htop : page / 2 ^ 18 = first / 2 ^ 18
  · simp only [entry, RadixNodeHead.child, htop, Function.update_self, Option.getD_some, hnode]
    simp only [show (first % 2 ^ 18 ≤ page % 2 ^ 18 ∧ page % 2 ^ 18 < first % 2 ^ 18 + n) ↔
      (first ≤ page ∧ page < first + n) by omega]
  · rw [if_neg (by omega)]
    simp only [entry, RadixNodeHead.child, Function.update_of_ne htop]

/-- Inserting a run of pages below one bottom node. -/
theorem insert_pageKey (v : Int) (haddr : addr < 2 ^ 48)
    (fits : addr / 4096 % 2 ^ 18 + n ≤ 2 ^ 18) :
    ∃ tree', TreeNode.insert tree (pageKey addr) v n = some tree' ∧
      ∀ page, entry tree' page =
        if addr / 4096 ≤ page ∧ page < addr / 4096 + n then v else tree.entry page := by
  obtain ⟨node, hfill, hnode⟩ := RadixBottomNode.fill_eq_some v
    (tree.child (addr / 4096 / 2 ^ 18)) fits
  refine ⟨_, ?_, tree.entry_update fits hnode⟩
  simp only [TreeNode.insert, index_pageKey haddr, index_nextKey_pageKey haddr, hfill]
  rfl

/-- Removing a run of pages below one bottom node. -/
theorem remove_pageKey (haddr : addr < 2 ^ 48) (fits : addr / 4096 % 2 ^ 18 + n ≤ 2 ^ 18) :
    ∃ tree', TreeNode.remove tree (pageKey addr) n = some tree' ∧
      ∀ page, entry tree' page =
        if addr / 4096 ≤ page ∧ page < addr / 4096 + n then 0 else tree.entry page := by
  cases hnodes : tree.nodes (addr / 4096 / 2 ^ 18) with
  | none =>
      refine ⟨tree, ?_, fun page => ?_⟩
      · simp only [TreeNode.remove, index_pageKey haddr, hnodes]
      · split
        · next h =>
            have htop : page / 2 ^ 18 = addr / 4096 / 2 ^ 18 := by omega
            rw [entry, RadixNodeHead.child, htop, hnodes]
            rfl
        · rfl
  | some below =>
      obtain ⟨node, hfill, hnode⟩ := RadixBottomNode.fill_eq_some 0 below fits
      refine ⟨_, ?_, tree.entry_update fits (fun i => ?_ : ∀ i, node.nodes i = _)⟩
      · simp only [TreeNode.remove, index_pageKey haddr, hnodes, index_nextKey_pageKey haddr, hfill]
        rfl
      · rw [hnode, RadixNodeHead.child, hnodes]
        rfl

/-- Inserting a run of pages that crosses a bottom node panics. -/
theorem insert_pageKey_eq_none (v : Int) (haddr : addr < 2 ^ 48) (hn : 0 < n)
    (beyond : 2 ^ 18 < addr / 4096 % 2 ^ 18 + n) :
    TreeNode.insert tree (pageKey addr) v n = none := by
  simp only [TreeNode.insert, index_pageKey haddr, index_nextKey_pageKey haddr,
    RadixBottomNode.fill_eq_none v _ hn beyond]
  rfl

/-- So does removing one, unless there is no node. -/
theorem remove_pageKey_eq_none (haddr : addr < 2 ^ 48) (hn : 0 < n)
    (beyond : 2 ^ 18 < addr / 4096 % 2 ^ 18 + n) (held : tree.entry (addr / 4096) ≠ 0) :
    TreeNode.remove tree (pageKey addr) n = none := by
  cases hnodes : tree.nodes (addr / 4096 / 2 ^ 18) with
  | none =>
      refine absurd ?_ held
      rw [entry, RadixNodeHead.child, hnodes]
      rfl
  | some below =>
      simp only [TreeNode.remove, index_pageKey haddr, hnodes, index_nextKey_pageKey haddr,
        RadixBottomNode.fill_eq_none 0 below hn beyond]
      rfl

end RadixTree

end UniAlloc.Radix
