import Mathlib.Algebra.BigOperators.Intervals
import Mathlib.Algebra.Group.Pi.Basic
import Mathlib.Data.BitVec
import UniAlloc.Memory

/-!
# Range additions and range sums

The range trees answer calls that add to a range of an array and that ask for the sum
of a range. Their nodes lie in arrays of machine words.
-/

namespace UniAlloc.BitmapAlloc

/-- A `u32`. -/
abbrev U32 := BitVec 32

/-- `a[i]` of an array with `len` words. -/
def index (len : Nat) (a : Nat → U32) (i : Nat) : Option U32 :=
  if i < len then some (a i) else none

/-- `a[i] += v`. -/
def addAssign (len : Nat) (a : Nat → U32) (i : Nat) (v : U32) : Option (Nat → U32) :=
  if i < len then some (Function.update a i (a i + v)) else none

/-- The calls on a range tree, with a range from `l` to before `r`. -/
inductive Call where
  | add (l r : Nat) (v : U32)
  | getSum (l r : Nat)

namespace Call

def range : Call → Nat × Nat
  | add l r _ => (l, r)
  | getSum l r => (l, r)

/-- The range lies in the array. -/
def In (N : Nat) (c : Call) : Prop := c.range.1 ≤ c.range.2 ∧ c.range.2 ≤ N

/-- The range is empty or reaches to an end of the array. -/
def Touches (N : Nat) (c : Call) : Prop := c.range.1 = c.range.2 ∨ c.range.1 = 0 ∨ c.range.2 = N

/-- What the call adds to the sum of the array. -/
def added : Call → Nat
  | add l r v => (r - l) * v.toNat
  | getSum _ _ => 0

end Call

/-- The sum of the array after the calls. -/
def total (calls : List Call) : Nat := (calls.map Call.added).sum

/-- The array after `v` has been added to the range element by element. -/
def plainAdd {α : Type*} [Add α] (a : Nat → α) (l r : Nat) (v : α) : Nat → α := fun x =>
  if l ≤ x ∧ x < r then a x + v else a x

/-- The answers of the plain array. -/
def plainRun : (Nat → Nat) → List Call → List Nat
  | _, [] => []
  | a, .add l r v :: calls => plainRun (plainAdd a l r v.toNat) calls
  | a, .getSum l r :: calls => (∑ x ∈ Finset.Ico l r, a x) :: plainRun a calls

@[simp] theorem total_cons (c : Call) (calls : List Call) :
    total (c :: calls) = c.added + total calls := by
  rw [total, List.map_cons, List.sum_cons, total]

/-- A range addition adds to the sum of the array once for each element. -/
theorem sum_plainAdd {N l r : Nat} (a : Nat → Nat) (v : Nat) (hr : r ≤ N) :
    ∑ x ∈ Finset.range N, plainAdd a l r v x = ∑ x ∈ Finset.range N, a x + (r - l) * v := by
  have hterm : ∀ x ∈ Finset.range N, plainAdd a l r v x =
      a x + if x ∈ Finset.Ico l r then v else 0 := by
    intro x _
    rw [plainAdd, if_congr Finset.mem_Ico rfl rfl]
    split
    · rfl
    · rw [Nat.add_zero]
  have hsub : Finset.Ico l r ⊆ Finset.range N := by
    intro x hx
    rw [Finset.mem_Ico] at hx
    exact Finset.mem_range.mpr (by omega)
  rw [Finset.sum_congr rfl hterm, Finset.sum_add_distrib, Finset.sum_ite_mem,
    Finset.inter_eq_right.mpr hsub, Finset.sum_const, Nat.card_Ico]
  rfl

/-- Additions, given by their ranges and values. -/
def additions (adds : List (Nat × Nat × U32)) : List Call :=
  adds.map fun c => .add c.1 c.2.1 c.2.2

/-- Range additions commute, so that the array does not depend on their order. -/
theorem plainRun_perm {adds adds' : List (Nat × Nat × U32)} (h : adds.Perm adds')
    (calls : List Call) (a : Nat → Nat) :
    plainRun a (additions adds ++ calls) = plainRun a (additions adds' ++ calls) := by
  induction h generalizing a with
  | nil => rfl
  | cons c _ ih =>
      exact ih _
  | swap c d adds =>
      have hcomm : plainAdd (plainAdd a d.1 d.2.1 d.2.2.toNat) c.1 c.2.1 c.2.2.toNat =
          plainAdd (plainAdd a c.1 c.2.1 c.2.2.toNat) d.1 d.2.1 d.2.2.toNat := by
        funext x
        simp only [plainAdd]
        split <;> split <;> omega
      simp only [additions, List.map_cons, List.cons_append, plainRun, hcomm]
  | trans _ _ ih ih' => exact (ih a).trans (ih' a)

theorem shiftLeft_one {w : Nat} (j : Nat) : (2 ^ j : BitVec w) <<< 1 = 2 ^ (j + 1) := by
  have htwo : BitVec.twoPow w 1 = 2 := by
    apply BitVec.eq_of_toNat_eq
    rw [BitVec.toNat_twoPow]
    rfl
  rw [BitVec.shiftLeft_eq_mul_twoPow, pow_succ, htwo]

theorem index_of_lt {len i : Nat} (a : Nat → U32) (h : i < len) : index len a i = some (a i) :=
  if_pos h

theorem update_add {w : Nat} (a : Nat → BitVec w) (i : Nat) (v : BitVec w) :
    Function.update a i (a i + v) = a + Pi.single i v := by
  funext x
  rw [Function.update_apply, Pi.add_apply, Pi.single_apply]
  split
  · next hx => rw [hx]
  · rw [add_zero]

theorem addAssign_of_lt {len i : Nat} (a : Nat → U32) (v : U32) (h : i < len) :
    addAssign len a i v = some (a + Pi.single i v) := by
  rw [addAssign, if_pos h, update_add]

end UniAlloc.BitmapAlloc
