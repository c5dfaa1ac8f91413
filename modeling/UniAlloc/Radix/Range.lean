import UniAlloc.Radix.Basic

/-!
# Ranges of pages

`insert` and `remove` work on a range of pages below one bottom node. Here they are
followed to the end of the call, a panic included: what was written before it stays in
the tree. A range that goes on beyond the bottom node of its first page is cut off there.
-/

namespace UniAlloc.Radix

/-- How a call ends: with a `Result<(), &str>`, or with a panic. -/
inductive Outcome where
  | ok
  | err (text : String)
  | panic
  deriving DecidableEq

namespace RadixBottomNode

/-- `for i in 0..n { self.nodes[idx + i] = v }`, with what it leaves behind. -/
def fillLoop (idx : Nat) (v : Int) : Nat → RadixBottomNode → RadixBottomNode × Outcome
  | 0, node => (node, .ok)
  | n + 1, node =>
      match fillLoop idx v n node with
      | (node, .ok) =>
          if idx + n < 2 ^ 18 then (⟨Function.update node.nodes (idx + n) v⟩, .ok)
          else (node, .panic)
      | (node, out) => (node, out)

/-- The loop writes up to the end of the node. -/
theorem fillLoop_spec {idx : Nat} (hidx : idx < 2 ^ 18) (v : Int) (n : Nat)
    (node : RadixBottomNode) :
    (fillLoop idx v n node).2 = (if idx + n ≤ 2 ^ 18 then .ok else .panic) ∧
      ∀ i < 2 ^ 18, (fillLoop idx v n node).1.nodes i =
        if idx ≤ i ∧ i < idx + n then v else node.nodes i := by
  induction n with
  | zero => exact ⟨(if_pos (by omega)).symm, fun i _ => (if_neg (by omega)).symm⟩
  | succ n ih =>
      obtain ⟨hout, hnode⟩ := ih
      rw [fillLoop]
      generalize fillLoop idx v n node = r at hout hnode
      obtain ⟨node', out⟩ := r
      obtain hroom | hend := Nat.lt_or_ge (idx + n) (2 ^ 18)
      · obtain rfl : out = .ok := hout.trans (if_pos (by omega))
        simp only [if_pos hroom]
        refine ⟨(if_pos (by omega)).symm, fun i hi => ?_⟩
        by_cases hlast : i = idx + n
        · subst hlast
          rw [Function.update_self, if_pos (by omega)]
        · rw [Function.update_of_ne hlast, hnode i hi]
          simp only [show (idx ≤ i ∧ i < idx + n) ↔ (idx ≤ i ∧ i < idx + (n + 1)) by omega]
      · -- the loop stands at the end of the node, or has panicked there before
        have hrest : ∀ i < 2 ^ 18, node'.nodes i =
            if idx ≤ i ∧ i < idx + (n + 1) then v else node.nodes i := by
          intro i hi
          rw [hnode i hi]
          simp only [show (idx ≤ i ∧ i < idx + n) ↔ (idx ≤ i ∧ i < idx + (n + 1)) by omega]
        rw [if_neg (show ¬idx + (n + 1) ≤ 2 ^ 18 by omega)]
        obtain hok | hpanic : out = .ok ∨ out = .panic := by
          rw [show out = _ from hout]
          split <;> simp
        · subst hok
          simp only [if_neg (Nat.not_lt.mpr hend)]
          exact ⟨trivial, hrest⟩
        · subst hpanic
          exact ⟨rfl, hrest⟩

/-- A loop that ends well is the fill. -/
theorem fill_eq_fillLoop (idx : Nat) (v : Int) (n : Nat) (node : RadixBottomNode) :
    fill idx v n node = match fillLoop idx v n node with
      | (node, .ok) => some node
      | _ => none := by
  induction n with
  | zero => rfl
  | succ n ih =>
      rw [fill, fillLoop, ih]
      generalize fillLoop idx v n node = r
      obtain ⟨node', out⟩ := r
      cases out with
      | ok =>
          simp only [Option.bind_eq_bind, Option.bind_some]
          split <;> rfl
      | err text => rfl
      | panic => rfl

end RadixBottomNode

namespace RadixTree

open RadixBottomNode

/-- `insert`, with the tree that it leaves behind. -/
def insertRange (tree : RadixTree) (k : Nat) (v : Int) (n : Nat) : RadixTree × Outcome :=
  let (node, out) := fillLoop (index (nextKey k)) v n (tree.child (index k))
  (⟨Function.update tree.nodes (index k) (some node)⟩, out)

/-- `remove`, with the tree that it leaves behind. -/
def removeRange (tree : RadixTree) (k n : Nat) : RadixTree × Outcome :=
  match tree.nodes (index k) with
  | none => (tree, .ok)
  | some node =>
      let (node, out) := fillLoop (index (nextKey k)) 0 n node
      (⟨Function.update tree.nodes (index k) (some node)⟩, out)

/-- The calls that return. -/
def returned : RadixTree × Outcome → Option RadixTree
  | (tree, .ok) => some tree
  | _ => none

theorem insert_eq_returned (tree : RadixTree) (k : Nat) (v : Int) (n : Nat) :
    TreeNode.insert tree k v n = returned (tree.insertRange k v n) := by
  simp only [TreeNode.insert, fill_eq_fillLoop, insertRange]
  generalize fillLoop (index (nextKey k)) v n (tree.child (index k)) = r
  obtain ⟨node, out⟩ := r
  cases out <;> rfl

theorem remove_eq_returned (tree : RadixTree) (k n : Nat) :
    TreeNode.remove tree k n = returned (tree.removeRange k n) := by
  simp only [TreeNode.remove, removeRange]
  cases tree.nodes (index k) with
  | none => rfl
  | some node =>
      simp only [fill_eq_fillLoop]
      generalize fillLoop (index (nextKey k)) 0 n node = r
      obtain ⟨node', out⟩ := r
      cases out <;> rfl

/-- A call on the range of `n` pages from `page` either returns `Ok` and sets the pages of
the range to `v`, or returns `Err` and changes nothing. -/
def AllOrNothing (tree : RadixTree) (page n : Nat) (v : Int) : RadixTree × Outcome → Prop
  | (tree', .ok) => page + n ≤ 2 ^ 36 ∧ ∀ q < 2 ^ 36,
      tree'.entry q = if page ≤ q ∧ q < page + n then v else tree.entry q
  | (tree', .err _) => ∀ q < 2 ^ 36, tree'.entry q = tree.entry q
  | (_, .panic) => False

variable (tree : RadixTree) {addr : Nat}

theorem insertRange_out (haddr : addr < 2 ^ 48) (v : Int) (n : Nat) :
    (tree.insertRange (pageKey addr) v n).2 =
      if addr / 4096 % 2 ^ 18 + n ≤ 2 ^ 18 then .ok else .panic := by
  rw [insertRange, index_nextKey_pageKey haddr]
  exact (fillLoop_spec (Nat.mod_lt _ (by decide)) v n _).1

theorem removeRange_none {n : Nat} (haddr : addr < 2 ^ 48)
    (unmapped : tree.nodes (addr / 4096 / 2 ^ 18) = none) :
    tree.removeRange (pageKey addr) n = (tree, .ok) := by
  rw [removeRange, index_pageKey haddr, unmapped]

theorem removeRange_out {below : RadixBottomNode} (haddr : addr < 2 ^ 48)
    (mapped : tree.nodes (addr / 4096 / 2 ^ 18) = some below) (n : Nat) :
    (tree.removeRange (pageKey addr) n).2 =
      if addr / 4096 % 2 ^ 18 + n ≤ 2 ^ 18 then .ok else .panic := by
  rw [removeRange, index_pageKey haddr, mapped, index_nextKey_pageKey haddr]
  exact (fillLoop_spec (Nat.mod_lt _ (by decide)) 0 n _).1

theorem not_allOrNothing_of_panic {page n : Nat} {v : Int} {r : RadixTree × Outcome}
    (h : r.2 = .panic) : ¬AllOrNothing tree page n v r := by
  obtain ⟨tree', out⟩ := r
  obtain rfl : out = .panic := h
  exact fun h => h

theorem allOrNothing_of_returned {page n : Nat} {v : Int} {r : RadixTree × Outcome}
    {tree' : RadixTree} (hr : returned r = some tree') (hpage : page + n ≤ 2 ^ 36)
    (hentry : ∀ q, tree'.entry q = if page ≤ q ∧ q < page + n then v else tree.entry q) :
    AllOrNothing tree page n v r := by
  obtain ⟨tree'', out⟩ := r
  cases out with
  | ok =>
      cases hr
      exact ⟨hpage, fun q _ => hentry q⟩
  | err text => cases hr
  | panic => cases hr

/-- As long as nodes can be mapped `insert` is all or nothing if the range ends with its first
bottom node at the latest. `remove` is so too, and also if there is no such node and nothing to
remove. -/
theorem all_or_nothing_iff (haddr : addr < 2 ^ 48) (v : Int) (n : Nat) :
    (AllOrNothing tree (addr / 4096) n v (tree.insertRange (pageKey addr) v n) ↔
      addr / 4096 % 2 ^ 18 + n ≤ 2 ^ 18) ∧
    (AllOrNothing tree (addr / 4096) n 0 (tree.removeRange (pageKey addr) n) ↔
      addr / 4096 % 2 ^ 18 + n ≤ 2 ^ 18 ∨
        tree.nodes (addr / 4096 / 2 ^ 18) = none ∧ addr / 4096 + n ≤ 2 ^ 36 ∧
          ∀ q, addr / 4096 ≤ q → q < addr / 4096 + n → tree.entry q = 0) := by
  have hpage : addr / 4096 % 2 ^ 18 + n ≤ 2 ^ 18 → addr / 4096 + n ≤ 2 ^ 36 := by omega
  refine ⟨⟨fun h => ?_, fun fits => ?_⟩, ⟨fun h => ?_, ?_⟩⟩
  · by_contra beyond
    exact not_allOrNothing_of_panic tree ((tree.insertRange_out haddr v n).trans (if_neg beyond)) h
  · obtain ⟨tree', hinsert, hentry⟩ := tree.insert_pageKey v haddr fits
    exact allOrNothing_of_returned tree ((tree.insert_eq_returned _ v n).symm.trans hinsert)
      (hpage fits) hentry
  · by_cases fits : addr / 4096 % 2 ^ 18 + n ≤ 2 ^ 18
    · exact .inl fits
    · cases hnode : tree.nodes (addr / 4096 / 2 ^ 18) with
      | none =>
          rw [tree.removeRange_none haddr hnode] at h
          refine .inr ⟨rfl, h.1, fun q hlow hhigh => ?_⟩
          have := h.1
          exact (h.2 q (by omega)).trans (if_pos ⟨hlow, hhigh⟩)
      | some below =>
          exact absurd h (not_allOrNothing_of_panic tree
            ((tree.removeRange_out haddr hnode n).trans (if_neg fits)))
  · rintro (fits | ⟨hnode, hbound, hzero⟩)
    · obtain ⟨tree', hremove, hentry⟩ := tree.remove_pageKey haddr fits
      exact allOrNothing_of_returned tree ((tree.remove_eq_returned _ n).symm.trans hremove)
        (hpage fits) hentry
    · rw [tree.removeRange_none haddr hnode]
      refine ⟨hbound, fun q _ => ?_⟩
      split
      · next h => exact hzero q h.1 h.2
      · rfl

/-- Two pages that start with the last page of a bottom node. -/
theorem all_or_nothing_last_page :
    (AllOrNothing TreeNode.zeroed (0x3ffff000 / 4096) 2 7
        (insertRange TreeNode.zeroed (pageKey 0x3ffff000) 7 2) ↔
      0x3ffff000 / 4096 % 2 ^ 18 + 2 ≤ 2 ^ 18) ∧
    (AllOrNothing TreeNode.zeroed (0x3ffff000 / 4096) 2 0
        (removeRange TreeNode.zeroed (pageKey 0x3ffff000) 2) ↔
      0x3ffff000 / 4096 % 2 ^ 18 + 2 ≤ 2 ^ 18 ∨
        (TreeNode.zeroed : RadixTree).nodes (0x3ffff000 / 4096 / 2 ^ 18) = none ∧
          0x3ffff000 / 4096 + 2 ≤ 2 ^ 36 ∧
          ∀ q, 0x3ffff000 / 4096 ≤ q → q < 0x3ffff000 / 4096 + 2 →
            (TreeNode.zeroed : RadixTree).entry q = 0) :=
  all_or_nothing_iff TreeNode.zeroed (by norm_num) 7 2

/-- They are not inserted, and the first of them stays behind in the tree. -/
theorem insert_half_done :
    (insertRange TreeNode.zeroed (pageKey 0x3ffff000) 7 2).2 = .panic ∧
      (insertRange TreeNode.zeroed (pageKey 0x3ffff000) 7 2).1.entry 0x3ffff = 7 ∧
      ¬AllOrNothing TreeNode.zeroed 0x3ffff 2 7
        (insertRange TreeNode.zeroed (pageKey 0x3ffff000) 7 2) := by
  have hout : (insertRange TreeNode.zeroed (pageKey 0x3ffff000) 7 2).2 = .panic := by decide
  exact ⟨hout, by decide, not_allOrNothing_of_panic _ hout⟩

end RadixTree

end UniAlloc.Radix
