import Mathlib.Algebra.BigOperators.Intervals
import Mathlib.Data.Nat.Bitwise
import Mathlib.Tactic.Ring

/-!
# Boundary paths of a flat binary tree

The nodes of a flat tree with leaves `N`, …, `2 * N - 1` are numbered so that `i / 2` is
the parent of `i`. A range of leaves is taken apart along the two paths that lead up
from its ends: where a path leaves a node on the side of the range, the sibling of the
node lies in the range. A `Path` is one of the two; what it has passed after `j` steps
is the finite set `covered j`.

Every node carries a mark that counts for all leaves below it and a sum of its own
leaves. `weight` adds up the marks above a leaf, and `Sums` says that the sums agree
with the marks.
-/

namespace Boundary

variable {N h h' i i' j J y : Nat}

/-- The leaves below the node `i` of height `h`. -/
def below (h i : Nat) : Finset Nat := Finset.Ico (i * 2 ^ h) ((i + 1) * 2 ^ h)

theorem mem_below : y ∈ below h i ↔ y / 2 ^ h = i := by
  rw [below, Finset.mem_Ico, Nat.div_eq_iff (Nat.two_pow_pos h), Nat.add_mul, Nat.one_mul]
  have := Nat.two_pow_pos h
  omega

@[simp] theorem card_below (h i : Nat) : (below h i).card = 2 ^ h := by
  rw [below, Nat.card_Ico, Nat.add_mul, Nat.one_mul, Nat.add_sub_cancel_left]

/-- The leaves below `i` at height `h` are leaves of the tree. -/
def Node (N h i : Nat) : Prop := N ≤ i * 2 ^ h ∧ (i + 1) * 2 ^ h ≤ 2 * N

theorem Node.mem_leaves (node : Node N h i) (hy : y ∈ below h i) : N ≤ y ∧ y < 2 * N := by
  obtain ⟨hlo, hhi⟩ := node
  rw [below, Finset.mem_Ico] at hy
  omega

theorem Node.lt (node : Node N h i) : i < 2 * N := by
  obtain ⟨-, hhi⟩ := node
  have := Nat.le_mul_of_pos_right (i + 1) (Nat.two_pow_pos h)
  omega

/-- Above a leaf a node has one height. -/
theorem Node.height_eq (node : Node N h i) (hlo : N ≤ y) (hhi : y < 2 * N) (hy : y / 2 ^ j = i) :
    j = h := by
  obtain ⟨hn, hn'⟩ := node
  have hle := Nat.div_mul_le_self y (2 ^ j)
  have hlt := Nat.lt_div_mul_add (a := y) (Nat.two_pow_pos j)
  rw [hy] at hle hlt
  obtain hjh | rfl | hhj := Nat.lt_trichotomy j h
  · have := Nat.pow_le_pow_right (n := 2) (by omega) (show j + 1 ≤ h by omega)
    have := Nat.mul_le_mul_left (i + 1) this
    rw [Nat.pow_succ, ← Nat.mul_assoc, Nat.add_mul] at this
    omega
  · rfl
  · have := Nat.pow_le_pow_right (n := 2) (by omega) (show h + 1 ≤ j by omega)
    have := Nat.mul_le_mul_left i this
    rw [Nat.pow_succ, ← Nat.mul_assoc] at this
    omega

section Marks

variable {α : Type*} [CommSemiring α]

/-- The marks above the leaf `y`, up to height `h`. -/
def weight (tag : Nat → α) (h y : Nat) : α := ∑ j ∈ Finset.range (h + 1), tag (y / 2 ^ j)

theorem weight_succ (tag : Nat → α) (h y : Nat) :
    weight tag (h + 1) y = weight tag h y + tag (y / 2 ^ (h + 1)) :=
  Finset.sum_range_succ _ _

theorem weight_add (tag tag' : Nat → α) (h y : Nat) :
    weight (tag + tag') h y = weight tag h y + weight tag' h y :=
  Finset.sum_add_distrib

@[simp] theorem weight_zero (h y : Nat) : weight (0 : Nat → α) h y = 0 :=
  Finset.sum_const_zero

/-- A single mark counts for the leaves below it. -/
theorem weight_single (node : Node N j i) (v : α) (hlo : N ≤ y) (hhi : y < 2 * N) :
    weight (Pi.single i v) h y = if j ≤ h ∧ y ∈ below j i then v else 0 := by
  have hterm : ∀ m, (Pi.single i v : Nat → α) (y / 2 ^ m) =
      if m = j then (if y ∈ below j i then v else 0) else 0 := by
    intro m
    rw [Pi.single_apply]
    by_cases hm : y / 2 ^ m = i
    · obtain rfl := node.height_eq hlo hhi hm
      rw [if_pos hm, if_pos rfl, if_pos (mem_below.mpr hm)]
    · rw [if_neg hm]
      split
      · next heq =>
          subst heq
          rw [if_neg (mt mem_below.mp hm)]
      · rfl
  rw [weight, Finset.sum_congr rfl fun m _ => hterm m, Finset.sum_ite_eq']
  simp only [Finset.mem_range, Nat.lt_succ_iff]
  split <;> simp_all

/-- The sum of each node is that of the marks below it. -/
def Sums (N : Nat) (tag sum : Nat → α) : Prop :=
  ∀ h i, Node N h i → sum i = ∑ y ∈ below h i, weight tag h y

theorem Sums.add {tag tag' sum sum' : Nat → α} (h : Sums N tag sum) (h' : Sums N tag' sum') :
    Sums N (tag + tag') (sum + sum') := fun m i node => by
  simp only [weight_add, Finset.sum_add_distrib, Pi.add_apply, h m i node, h' m i node]

end Marks

/-- The path that leads up from `start`. It passes the siblings of its nodes of one parity. -/
structure Path where
  start : Nat
  parity : Nat

namespace Path

variable (p : Path)

/-- The node at height `j`. -/
def node (j : Nat) : Nat := p.start / 2 ^ j

/-- The sibling of the node at height `j` is passed. -/
def Takes (j : Nat) : Prop := p.node j % 2 = p.parity

instance (j : Nat) : Decidable (p.Takes j) := inferInstanceAs (Decidable (_ = _))

/-- The sibling of the node at height `j`. -/
def sibling (j : Nat) : Nat := p.node j ^^^ 1

/-- The leaves that have been passed after `j` steps. -/
def covered : Nat → Finset Nat
  | 0 => ∅
  | j + 1 => if p.Takes j then covered j ∪ below j (p.sibling j) else covered j

/-- The siblings that are passed are nodes of the tree. -/
def Within (N J : Nat) : Prop := ∀ j < J, p.Takes j → Node N j (p.sibling j)

@[simp] theorem node_zero : p.node 0 = p.start := by simp [node]

theorem node_succ (j : Nat) : p.node (j + 1) = p.node j / 2 := by
  rw [node, node, Nat.div_div_eq_div_mul, Nat.pow_succ]

theorem node_shiftRight (j : Nat) : p.node j >>> 1 = p.node (j + 1) := by
  rw [Nat.shiftRight_one, node_succ]

theorem sibling_div (j : Nat) : p.sibling j / 2 = p.node (j + 1) := by
  rw [sibling, node_succ]
  obtain h | h := Nat.even_or_odd (p.node j)
  · rw [Nat.xor_one_of_even h]
    obtain ⟨m, hm⟩ := h
    omega
  · rw [Nat.xor_one_of_odd h]
    obtain ⟨m, hm⟩ := h
    omega

theorem sibling_ne (j : Nat) : p.sibling j ≠ p.node j := by
  rw [sibling]
  obtain h | h := Nat.even_or_odd (p.node j)
  · rw [Nat.xor_one_of_even h]
    omega
  · rw [Nat.xor_one_of_odd h]
    obtain ⟨m, hm⟩ := h
    omega

/-- What has been passed lies below the node that has been reached. -/
theorem div_of_mem_covered (hy : y ∈ p.covered j) : y / 2 ^ j = p.node j := by
  induction j with
  | zero => exact absurd hy (Finset.notMem_empty y)
  | succ j ih =>
      have hdiv : y / 2 ^ (j + 1) = y / 2 ^ j / 2 := by
        rw [Nat.div_div_eq_div_mul, Nat.pow_succ]
      rw [covered] at hy
      split at hy
      · obtain hy | hy := Finset.mem_union.mp hy
        · rw [hdiv, ih hy, node_succ]
        · rw [hdiv, mem_below.mp hy, sibling_div]
      · rw [hdiv, ih hy, node_succ]

theorem disjoint_sibling (j : Nat) : Disjoint (p.covered j) (below j (p.sibling j)) := by
  apply Finset.disjoint_left.mpr
  intro y hy hy'
  exact p.sibling_ne j ((mem_below.mp hy').symm.trans (p.div_of_mem_covered hy))

theorem covered_mono (h : j ≤ J) : p.covered j ⊆ p.covered J := by
  induction h with
  | refl => exact Finset.Subset.refl _
  | step _ ih =>
      apply ih.trans
      rw [covered]
      split
      · exact Finset.subset_union_left
      · exact Finset.Subset.refl _

variable {p}

theorem Within.mem_leaves (within : p.Within N J) (hy : y ∈ p.covered J) :
    N ≤ y ∧ y < 2 * N := by
  induction J with
  | zero => exact absurd hy (Finset.notMem_empty y)
  | succ J ih =>
      have within' : p.Within N J := fun j hj => within j (by omega)
      rw [covered] at hy
      split at hy
      · next htakes =>
          obtain hy | hy := Finset.mem_union.mp hy
          · exact ih within' hy
          · exact (within J (Nat.lt_succ_self J) htakes).mem_leaves hy
      · exact ih within' hy

end Path

end Boundary
