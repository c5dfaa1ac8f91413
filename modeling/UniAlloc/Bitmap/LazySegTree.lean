import UniAlloc.Bitmap.Array
import UniAlloc.Boundary.Range

/-!
# The lazy range tree

`LazySegTree` keeps an addition to a range at the nodes that make up the range. Before a
call walks up from the ends of its range, `untag` pushes what is kept above the ends down to
them, from a height `ln` that is computed from the size of the array.
-/

namespace UniAlloc.BitmapAlloc

/-- The tags, the sums and the numbers of leaves of the nodes. -/
structure LazySegTree (N : Nat) where
  tag : Nat → U32
  sum : Nat → U32
  num : Nat → U32

/-- The variables of a walk of `add`. -/
structure LazyWalk where
  l : Nat
  r : Nat
  lf : Bool
  rf : Bool

namespace LazySegTree

variable {N : Nat}

/-- `usize::leading_zeros`. -/
def leadingZeros (n : Nat) : Nat := if n = 0 then 64 else 63 - n.log2

/-- The height from which tags are pushed down. It is computed in a `u32`. -/
def ln (N : Nat) : Option Nat :=
  if leadingZeros (N - 1) ≤ 31 then some (31 - leadingZeros (N - 1) + 1) else none

/-- Applies a tag to node `i`. -/
def apply (self : LazySegTree N) (i : Nat) (v : U32) : Option (LazySegTree N) := do
  let num ← index (2 * N) self.num i
  let sum ← addAssign (2 * N) self.sum i (num * v)
  let tag ← addAssign (2 * N) self.tag i v
  return { self with tag, sum }

/-- Pushes the tag of node `j` down to its children. -/
def untagNode (self : LazySegTree N) (j : Nat) : Option (LazySegTree N) :=
  if j ≠ 0 then do
    let tag ← index (2 * N) self.tag j
    if tag ≠ 0 then
      let self ← self.apply (2 * j) tag
      let self ← self.apply (2 * j + 1) (self.tag j)
      return { self with tag := Function.update self.tag j 0 }
    else return self
  else some self

/-- The loop of `untag`, from height `h`. -/
def untagWhile (i : Nat) : Nat → LazySegTree N → Option (LazySegTree N)
  | 0, self => some self
  | h + 1, self => do
      let self ← self.untagNode (i >>> (h + 1))
      untagWhile i h self

/-- Pushes down the tags above `i`. -/
def untag (self : LazySegTree N) (i : Nat) : Option (LazySegTree N) := do
  let ln ← ln N
  untagWhile i ln self

/-- The sum of the parent of `l` from those of its children. -/
def mconcat (self : LazySegTree N) (l : Nat) : Option (LazySegTree N) := do
  let s ← index (2 * N) self.sum l
  let t ← index (2 * N) self.sum (l ^^^ 1)
  if l >>> 1 < 2 * N then
    return { self with sum := Function.update self.sum (l >>> 1) (s + t) }
  else none

def mconcatIf (self : LazySegTree N) (c : Bool) (l : Nat) : Option (LazySegTree N) :=
  if c then self.mconcat l else some self

/-- One side of a round of `add`: the sibling of `i` is tagged if it lies in the range. -/
def addSide (self : LazySegTree N) (takes : Bool) (i : Nat) (v : U32) (flag : Bool) :
    Option (LazySegTree N × Bool) :=
  if takes then do
    let self ← self.apply (i ^^^ 1) v
    return (self, true)
  else some (self, flag)

/-- The body of the first loop of `add`. -/
def addRound (self : LazySegTree N) (v : U32) (w : LazyWalk) :
    Option (LazySegTree N × LazyWalk) := do
  let (self, lf) ← self.addSide (w.l % 2 = 0) w.l v w.lf
  let (self, rf) ← self.addSide (w.r % 2 = 1) w.r v w.rf
  let self ← self.mconcatIf (lf ∧ 1 < w.l) w.l
  let self ← self.mconcatIf rf w.r
  return (self, ⟨w.l >>> 1, w.r >>> 1, lf, rf⟩)

/-- The first loop of `add`. A `usize` has no bits left after 64 rounds, and the loop does not
end from there. -/
def addWhile (v : U32) : Nat → LazySegTree N → LazyWalk → Option (LazySegTree N × LazyWalk)
  | 0, _, _ => none
  | fuel + 1, self, w =>
      if w.l ^^^ w.r ^^^ 1 ≠ 0 then do
        let (self, w) ← self.addRound v w
        addWhile v fuel self w
      else some (self, w)

/-- The second loop of `add`. -/
def addTail : Nat → LazySegTree N → Nat → Option (LazySegTree N)
  | 0, _, _ => none
  | fuel + 1, self, l =>
      if 1 < l then do
        let self ← self.mconcat l
        addTail fuel self (l >>> 1)
      else some self

/-- Adds `v` to the range `[l, r)`. -/
def add (self : LazySegTree N) (l r : Nat) (v : U32) : Option (LazySegTree N) := do
  let self ← self.untag (l + N - 1 + 1)
  let self ← self.untag (r + N - 1)
  let (self, w) ← addWhile v 64 self ⟨l + N - 1, r + N, false, false⟩
  addTail 64 self w.l

/-- One side of a round of `get_sum`. -/
def sumSide (self : LazySegTree N) (takes : Bool) (i : Nat) (s : U32) : Option U32 :=
  if takes then do
    let t ← index (2 * N) self.sum (i ^^^ 1)
    return s + t
  else some s

/-- The loop of `get_sum`. -/
def sumWhile (self : LazySegTree N) : Nat → Nat → Nat → U32 → U32 → Option U32
  | 0, _, _, _, _ => none
  | fuel + 1, l, r, ls, rs =>
      if l ^^^ r ^^^ 1 ≠ 0 then do
        let ls ← self.sumSide (l % 2 = 0) l ls
        let rs ← self.sumSide (r % 2 = 1) r rs
        sumWhile self fuel (l >>> 1) (r >>> 1) ls rs
      else some (ls + rs)

/-- The sum of the range `[l, r)`. Tags are pushed down here too. -/
def getSum (self : LazySegTree N) (l r : Nat) : Option (LazySegTree N × U32) := do
  let self ← self.untag (l + N - 1 + 1)
  let self ← self.untag (r + N - 1)
  let s ← self.sumWhile 64 (l + N - 1) (r + N) 0 0
  return (self, s)

/-- The answers to the calls. -/
def run : LazySegTree N → List Call → Option (LazySegTree N × List U32)
  | self, [] => some (self, [])
  | self, .add l r v :: calls => do
      let self ← self.add l r v
      run self calls
  | self, .getSum l r :: calls => do
      let (self, s) ← self.getSum l r
      let (self, answers) ← run self calls
      return (self, s :: answers)

/-- The number of leaves below node `i`. -/
def leaves (N i : Nat) : Nat := ((Finset.Ico N (2 * N)).filter fun y => ∃ h < 64, y >>> h = i).card

/-- The empty tree. -/
def start (N : Nat) : LazySegTree N := ⟨0, 0, fun i => leaves N i⟩

/-- Whatever is called, the answers are those of the plain array. -/
def Correct (N : Nat) : Prop :=
  ∀ calls : List Call, (∀ c ∈ calls, c.In N) → total calls < 2 ^ 32 →
    ∃ tree answers, (start N).run calls = some (tree, answers) ∧
      answers.map BitVec.toNat = plainRun (fun _ => 0) calls

theorem ln_eq_none (hN : 2 ≤ N) (h : N ≤ 2 ^ 32) : ln N = none := by
  have hlog : (N - 1).log2 < 32 := (Nat.log2_lt (by omega)).mpr (by omega)
  rw [ln, leadingZeros, if_neg (by omega : ¬N - 1 = 0), if_neg]
  omega

/-- For larger arrays the height is too small by 32. -/
theorem ln_eq (h : 2 ^ 32 < N) (hsize : 8 * N ≤ ISIZE_MAX) : ln N = some ((N - 1).log2 - 31) := by
  rw [ISIZE_MAX] at hsize
  have hlow : 32 ≤ (N - 1).log2 := (Nat.le_log2 (by omega)).mpr (by omega)
  have hhigh : (N - 1).log2 < 60 := (Nat.log2_lt (by omega)).mpr (by omega)
  rw [ln, leadingZeros, if_neg (by omega : ¬N - 1 = 0), if_pos (by omega)]
  congr 1
  omega

section Quiet

variable {self self' : LazySegTree N} {m i l : Nat} {v : U32} {w w' : LazyWalk} {fuel : Nat}

/-- Nothing has been written from index `m` on. -/
def Quiet (m : Nat) (self : LazySegTree N) : Prop := ∀ i, m ≤ i → self.tag i = 0 ∧ self.sum i = 0

theorem Quiet.apply (quiet : Quiet m self) (hi : i < m) (h : self.apply i v = some self') :
    Quiet m self' := by
  simp only [LazySegTree.apply, index, addAssign, Option.bind_eq_bind, Option.bind_eq_some_iff,
    Option.ite_none_right_eq_some, Option.pure_def, Option.some.injEq] at h
  obtain ⟨num, -, sum, ⟨-, rfl⟩, tag, ⟨-, rfl⟩, rfl⟩ := h
  intro x hx
  have hne : x ≠ i := by omega
  simp only [Function.update_of_ne hne]
  exact quiet x hx

theorem Quiet.mconcat (quiet : Quiet m self) (hl : l >>> 1 < m) (h : self.mconcat l = some self') :
    Quiet m self' := by
  simp only [LazySegTree.mconcat, index, Option.bind_eq_bind, Option.bind_eq_some_iff,
    Option.ite_none_right_eq_some, Option.pure_def, Option.some.injEq] at h
  obtain ⟨s, -, t, -, -, rfl⟩ := h
  intro x hx
  have hne : x ≠ l >>> 1 := by omega
  simp only [Function.update_of_ne hne]
  exact quiet x hx

theorem Quiet.mconcatIf {c : Bool} (quiet : Quiet m self) (hl : l >>> 1 < m)
    (h : self.mconcatIf c l = some self') : Quiet m self' := by
  rw [LazySegTree.mconcatIf] at h
  split at h
  · exact quiet.mconcat hl h
  · cases h
    exact quiet

theorem xor_one_le (i : Nat) : i ^^^ 1 ≤ i + 1 := by
  obtain heven | hodd := Nat.even_or_odd i
  · rw [Nat.xor_one_of_even heven]
  · rw [Nat.xor_one_of_odd hodd]
    omega

theorem Quiet.addSide {takes flag flag' : Bool} (quiet : Quiet m self) (hi : i + 1 < m)
    (h : self.addSide takes i v flag = some (self', flag')) : Quiet m self' := by
  rw [LazySegTree.addSide] at h
  split at h
  · simp only [Option.bind_eq_bind, Option.bind_eq_some_iff, Option.pure_def, Option.some.injEq,
      Prod.mk.injEq] at h
    obtain ⟨tree, happly, rfl, -⟩ := h
    exact quiet.apply ((xor_one_le i).trans_lt hi) happly
  · cases h
    exact quiet

/-- A round writes to the siblings and the parents of its nodes only. -/
theorem Quiet.addRound (quiet : Quiet m self) (hl : w.l + 1 < m) (hr : w.r + 1 < m)
    (h : self.addRound v w = some (self', w')) :
    Quiet m self' ∧ w'.l = w.l >>> 1 ∧ w'.r = w.r >>> 1 := by
  simp only [LazySegTree.addRound, Option.bind_eq_bind, Option.bind_eq_some_iff, Option.pure_def,
    Option.some.injEq, Prod.mk.injEq, Prod.exists] at h
  obtain ⟨tree, lf, hleft, tree', rf, hright, left, hl', right, hr', rfl, rfl⟩ := h
  have hshift : ∀ i, i >>> 1 ≤ i := fun i => Nat.shiftRight_le i 1
  have quiet' : Quiet m tree' := (quiet.addSide hl hleft).addSide hr hright
  have quiet_left : Quiet m left := quiet'.mconcatIf ((hshift w.l).trans_lt (by omega)) hl'
  exact ⟨quiet_left.mconcatIf ((hshift w.r).trans_lt (by omega)) hr', rfl, rfl⟩

theorem Quiet.addWhile (quiet : Quiet m self) (hl : w.l + 1 < m) (hr : w.r + 1 < m)
    (h : addWhile v fuel self w = some (self', w')) : Quiet m self' ∧ w'.l + 1 < m := by
  induction fuel generalizing self w with
  | zero => cases h
  | succ fuel ih =>
      rw [LazySegTree.addWhile] at h
      split at h
      · simp only [Option.bind_eq_bind, Option.bind_eq_some_iff, Prod.exists] at h
        obtain ⟨tree, w₁, hround, h⟩ := h
        obtain ⟨quiet₁, hl₁, hr₁⟩ := quiet.addRound hl hr hround
        apply ih quiet₁ _ _ h
        · have := Nat.shiftRight_le w.l 1
          omega
        · have := Nat.shiftRight_le w.r 1
          omega
      · cases h
        exact ⟨quiet, hl⟩

theorem Quiet.addTail (quiet : Quiet m self) (hl : l + 1 < m)
    (h : addTail fuel self l = some self') : Quiet m self' := by
  induction fuel generalizing self l with
  | zero => cases h
  | succ fuel ih =>
      rw [LazySegTree.addTail] at h
      have := Nat.shiftRight_le l 1
      split at h
      · simp only [Option.bind_eq_bind, Option.bind_eq_some_iff] at h
        obtain ⟨tree, hconcat, h⟩ := h
        exact ih (quiet.mconcat (by omega) hconcat) (by omega) h
      · cases h
        exact quiet

/-- Where the tags above `i` are zero there is nothing to push down. -/
theorem untagWhile_of_zero {h : Nat} (hzero : ∀ e, 1 ≤ e → e ≤ h → self.tag (i >>> e) = 0)
    (hrun : untagWhile i h self = some self') : self' = self := by
  induction h with
  | zero =>
      cases hrun
      rfl
  | succ h ih =>
      simp only [untagWhile, Option.bind_eq_bind, Option.bind_eq_some_iff] at hrun
      obtain ⟨tree, hnode, hrun⟩ := hrun
      have htree : tree = self := by
        rw [untagNode, index, hzero (h + 1) (by omega) (Nat.le_refl _)] at hnode
        split at hnode
        · split at hnode
          · cases hnode
            rfl
          · cases hnode
        · cases hnode
          rfl
      subst htree
      exact ih (fun e h₁ h₂ => hzero e h₁ (by omega)) hrun

/-- A walk from the ends of the leaves below `p` takes nothing before it is at `p`. -/
theorem addWhile_below {p e : Nat} (hp : 1 ≤ p)
    (h : addWhile v fuel self ⟨p * 2 ^ e - 1, (p + 1) * 2 ^ e, false, false⟩ = some (self', w')) :
    ∃ fuel', addWhile v fuel' self ⟨p - 1, p + 1, false, false⟩ = some (self', w') := by
  induction e generalizing fuel with
  | zero =>
      rw [Nat.pow_zero, Nat.mul_one, Nat.mul_one] at h
      exact ⟨fuel, h⟩
  | succ e ih =>
      have hpos : 1 ≤ p * 2 ^ e := Nat.mul_pos hp (Nat.two_pow_pos e)
      rw [Nat.pow_succ, ← Nat.mul_assoc, ← Nat.mul_assoc] at h
      have hr : (p + 1) * 2 ^ e = p * 2 ^ e + 2 ^ e := by rw [Nat.add_mul, Nat.one_mul]
      have hlt : p * 2 ^ e * 2 - 1 < (p + 1) * 2 ^ e * 2 := by
        have := Nat.two_pow_pos e
        omega
      have hne : p * 2 ^ e * 2 - 1 ^^^ (p + 1) * 2 ^ e * 2 ^^^ 1 ≠ 0 := by
        apply mt (Boundary.siblings_iff hlt).mp
        omega
      cases fuel with
      | zero => cases h
      | succ fuel =>
          have hround : self.addRound v ⟨p * 2 ^ e * 2 - 1, (p + 1) * 2 ^ e * 2, false, false⟩ =
              some (self, ⟨p * 2 ^ e - 1, (p + 1) * 2 ^ e, false, false⟩) := by
            have hodd : (p * 2 ^ e * 2 - 1) % 2 ≠ 0 := by omega
            have hhalf : (p * 2 ^ e * 2 - 1) / 2 = p * 2 ^ e - 1 := by omega
            have hhalf' : (p + 1) * 2 ^ e * 2 / 2 = (p + 1) * 2 ^ e := by omega
            simp [LazySegTree.addRound, LazySegTree.addSide, LazySegTree.mconcatIf, hodd, hhalf, hhalf',
              Nat.shiftRight_one]
          rw [LazySegTree.addWhile, if_pos hne, hround, Option.bind_eq_bind, Option.bind_some] at h
          exact ih h

/-- Between neighbouring nodes there is nothing to sum. -/
theorem sumWhile_neighbours {ls rs s : U32}
    (h : self.sumWhile fuel l (l + 1) ls rs = some s) : s = ls + rs := by
  induction fuel generalizing l with
  | zero => cases h
  | succ fuel ih =>
      rw [sumWhile] at h
      split at h
      · next hne =>
          have hodd : l % 2 ≠ 0 := by
            intro heven
            exact hne ((Boundary.siblings_iff (Nat.lt_succ_self l)).mpr ⟨heven, rfl⟩)
          have heven : (l + 1) % 2 ≠ 1 := by omega
          have hhalf : (l + 1) / 2 = l / 2 + 1 := by omega
          simp only [sumSide, hodd, heven, decide_false, Bool.false_eq_true, if_false,
            Option.bind_eq_bind, Option.bind_some, Nat.shiftRight_one, hhalf] at h
          exact ih h
      · cases h
        rfl

/-- The sum of one even leaf is the one that is kept at it. -/
theorem sumWhile_leaf {m : Nat} {s : U32} (hm : 1 ≤ m)
    (h : self.sumWhile fuel (m * 2 - 1) (m * 2 + 1) 0 0 = some s) : s = self.sum (m * 2) := by
  cases fuel with
  | zero => cases h
  | succ fuel =>
      have hne : m * 2 - 1 ^^^ (m * 2 + 1) ^^^ 1 ≠ 0 := by
        apply mt (Boundary.siblings_iff (by omega)).mp
        omega
      have hxor : m * 2 + 1 ^^^ 1 = m * 2 := by
        rw [Nat.xor_one_of_odd (Nat.odd_iff.mpr (by omega)), Nat.add_sub_cancel]
      have hodd : (m * 2 - 1) % 2 ≠ 0 := by omega
      have hodd' : (m * 2 + 1) % 2 = 1 := by omega
      rw [sumWhile, if_pos hne] at h
      simp only [sumSide, hodd, hodd', decide_false, decide_true, Bool.false_eq_true, if_false,
        if_true, Option.bind_eq_bind, Option.bind_some, Option.bind_eq_some_iff, hxor, index,
        Option.ite_none_right_eq_some, Option.some.injEq, Option.pure_def] at h
      obtain ⟨rs, ⟨t, ⟨-, rfl⟩, rfl⟩, h⟩ := h
      rw [show (m * 2 - 1) >>> 1 = m - 1 by omega, show (m * 2 + 1) >>> 1 = m - 1 + 1 by omega] at h
      rw [sumWhile_neighbours h, zero_add, zero_add]

theorem Quiet.untag {h : Nat} (quiet : Quiet m self) (hln : ln N = some h)
    (hi : ∀ e, 1 ≤ e → e ≤ h → m ≤ i >>> e) (hrun : self.untag i = some self') : self' = self := by
  rw [LazySegTree.untag, hln, Option.bind_eq_bind, Option.bind_some] at hrun
  exact untagWhile_of_zero (fun e h₁ h₂ => (quiet _ (hi e h₁ h₂)).1) hrun

end Quiet

/-- With up to `2 ^ 32` elements the height is not a `u32`. -/
theorem not_correct_of_le (hN : 2 ≤ N) (h : N ≤ 2 ^ 32) : ¬Correct N := by
  intro correct
  obtain ⟨tree, answers, hrun, -⟩ := correct [.getSum 0 0] (by simp [Call.In, Call.range])
    (by decide)
  rw [run, getSum, untag, ln_eq_none hN h] at hrun
  cases hrun

/-- A node that is one level above the height, with all leaves below it in the array. -/
theorem exists_node (h : 2 ^ 32 < N) :
    ∃ p, 3 ≤ p ∧ N < p * 2 ^ ((N - 1).log2 - 30) ∧ (p + 1) * 2 ^ ((N - 1).log2 - 30) ≤ 2 * N := by
  have hlow : 32 ≤ (N - 1).log2 := (Nat.le_log2 (by omega)).mpr (by omega)
  have hlog : 2 ^ (N - 1).log2 ≤ N - 1 := Nat.log2_self_le (by omega)
  have hpow : 2 ^ (N - 1).log2 = 2 ^ 30 * 2 ^ ((N - 1).log2 - 30) := by
    rw [← Nat.pow_add]
    congr 1
    omega
  generalize 2 ^ ((N - 1).log2 - 30) = b at *
  have hb : 0 < b := by
    apply Nat.pos_of_ne_zero
    rintro rfl
    have := Nat.two_pow_pos (N - 1).log2
    omega
  have hdiv : 2 ≤ N / b := (Nat.le_div_iff_mul_le hb).mpr (by omega)
  have hle := Nat.div_mul_le_self N b
  have hlt := Nat.lt_div_mul_add (a := N) hb
  refine ⟨N / b + 1, by omega, ?_, ?_⟩
  · rwa [Nat.add_mul, Nat.one_mul]
  · rw [Nat.add_mul, Nat.add_mul, Nat.one_mul]
    omega

/-- An addition to the leaves below `p` writes nothing behind `p + 2`. -/
theorem add_below {a e h p : Nat} {v : U32} {tree : LazySegTree N} (hln : ln N = some h)
    (hp : 1 ≤ p) (ha : a + N = p * 2 ^ e) (hadd : (start N).add a (a + 2 ^ e) v = some tree) :
    Quiet (p + 3) tree := by
  have quiet : ∀ m, Quiet m (start N) := fun _ _ _ => ⟨rfl, rfl⟩
  have hpos := Nat.two_pow_pos e
  simp only [add, Option.bind_eq_bind, Option.bind_eq_some_iff, Prod.exists] at hadd
  obtain ⟨tree₁, huntag₁, tree₂, huntag₂, tree₃, w, hwhile, htail⟩ := hadd
  obtain rfl := (quiet 0).untag hln (fun _ _ _ => Nat.zero_le _) huntag₁
  obtain rfl := (quiet 0).untag hln (fun _ _ _ => Nat.zero_le _) huntag₂
  rw [ha, show a + 2 ^ e + N = (p + 1) * 2 ^ e by rw [Nat.add_mul]; omega] at hwhile
  obtain ⟨fuel, hwhile⟩ := addWhile_below hp hwhile
  obtain ⟨quiet₃, hl⟩ := (quiet (p + 3)).addWhile (by dsimp only; omega) (by dsimp only; omega)
    hwhile
  exact quiet₃.addTail hl htail

/-- The sum of a leaf far below `p` does not see what is kept at `p`. -/
theorem getSum_leaf {a h m p : Nat} {self tree : LazySegTree N} {s : U32} (quiet : Quiet m self)
    (hln : ln N = some h) (hp : 1 ≤ p) (hm : m ≤ 2 * p) (ha : a + N = p * 2 ^ (h + 1))
    (hsum : self.getSum a (a + 1) = some (tree, s)) : s = 0 := by
  have hpow : ∀ e ≤ h, m ≤ p * 2 ^ (h + 1) / 2 ^ e := by
    intro e he
    have hsplit : p * 2 ^ (h + 1) = 2 * p * 2 ^ (h - e) * 2 ^ e := by
      rw [Nat.mul_assoc, ← Nat.pow_add, Nat.sub_add_cancel he, Nat.pow_succ]
      ring
    rw [hsplit, Nat.mul_div_cancel _ (Nat.two_pow_pos e)]
    exact hm.trans (Nat.le_mul_of_pos_right _ (Nat.two_pow_pos _))
  have hpos : 0 < p * 2 ^ (h + 1) := Nat.mul_pos hp (Nat.two_pow_pos _)
  have hmid : p * 2 ^ (h + 1) = p * 2 ^ h * 2 := by rw [Nat.pow_succ, Nat.mul_assoc]
  simp only [getSum, Option.bind_eq_bind, Option.bind_eq_some_iff, Option.pure_def,
    Option.some.injEq, Prod.mk.injEq] at hsum
  obtain ⟨tree₁, huntag₁, tree₂, huntag₂, t, hwhile, rfl, rfl⟩ := hsum
  have hi : ∀ i, i = p * 2 ^ (h + 1) → ∀ e, 1 ≤ e → e ≤ h → m ≤ i >>> e := by
    rintro i rfl e - he
    rw [Nat.shiftRight_eq_div_pow]
    exact hpow e he
  obtain rfl := quiet.untag hln (hi _ (by omega)) huntag₁
  obtain rfl := quiet.untag hln (hi _ (by omega)) huntag₂
  rw [ha, show a + 1 + N = p * 2 ^ (h + 1) + 1 by omega, hmid] at hwhile
  rw [sumWhile_leaf (Nat.mul_pos hp (Nat.two_pow_pos h)) hwhile, ← hmid]
  exact (quiet _ (hpow 0 (Nat.zero_le h) |>.trans_eq (Nat.div_one _))).2

/-- With more elements the tag of a node above the height is not pushed down, and the sum of
a leaf below it does not count it. -/
theorem not_correct_of_lt (h : 2 ^ 32 < N) (hsize : 8 * N ≤ ISIZE_MAX) : ¬Correct N := by
  obtain ⟨p, hp, hlow, hhigh⟩ := exists_node h
  have hln := ln_eq h hsize
  rw [ISIZE_MAX] at hsize
  have hlog : 32 ≤ (N - 1).log2 := (Nat.le_log2 (by omega)).mpr (by omega)
  have hlog' : (N - 1).log2 < 60 := (Nat.log2_lt (by omega)).mpr (by omega)
  obtain ⟨e, he⟩ : ∃ e, (N - 1).log2 - 31 = e := ⟨_, rfl⟩
  rw [show (N - 1).log2 - 30 = e + 1 by omega] at hlow hhigh
  rw [he] at hln
  obtain ⟨a, ha⟩ : ∃ a, a + N = p * 2 ^ (e + 1) := ⟨p * 2 ^ (e + 1) - N, by omega⟩
  have hpos : 0 < 2 ^ (e + 1) := Nat.two_pow_pos (e + 1)
  have hsmall : 2 ^ (e + 1) < 2 ^ 32 := Nat.pow_lt_pow_right (by omega) (by omega)
  rw [Nat.add_mul, Nat.one_mul] at hhigh
  intro correct
  have hin : ∀ c ∈ [Call.add a (a + 2 ^ (e + 1)) 1, .getSum a (a + 1)], c.In N := by
    simp only [List.mem_cons, List.not_mem_nil, or_false, forall_eq_or_imp, forall_eq, Call.In,
      Call.range]
    omega
  have htotal : total [Call.add a (a + 2 ^ (e + 1)) 1, .getSum a (a + 1)] < 2 ^ 32 := by
    change (a + 2 ^ (e + 1) - a) * 1 + 0 < 2 ^ 32
    omega
  obtain ⟨tree, answers, hrun, hans⟩ := correct _ hin htotal
  simp only [run, Option.bind_eq_bind, Option.bind_eq_some_iff, Option.pure_def, Prod.exists,
    Option.some.injEq, Prod.mk.injEq] at hrun
  obtain ⟨added, hadd, summed, s, hsum, tree', answers', ⟨rfl, rfl⟩, rfl, rfl⟩ := hrun
  have quiet := add_below hln (by omega) ha hadd
  have hzero := getSum_leaf quiet hln (by omega) (by omega) ha hsum
  have hone : plainRun (fun _ => 0) [.add a (a + 2 ^ (e + 1)) 1, .getSum a (a + 1)] = [1] := by
    rw [plainRun, plainRun, plainRun, Nat.Ico_succ_singleton, Finset.sum_singleton, plainAdd,
      if_pos ⟨Nat.le_refl a, by omega⟩]
    rfl
  rw [hone, hzero] at hans
  exact absurd hans (by decide)

/-- There is no size for which the tree gives the answers of the plain array. -/
theorem never_correct (hN : 2 ≤ N) (hsize : 8 * N ≤ ISIZE_MAX) : ¬Correct N := by
  obtain h | h := Nat.lt_or_ge (2 ^ 32) N
  · exact not_correct_of_lt h hsize
  · exact not_correct_of_le hN h

theorem never_correct_large : ¬Correct (2 ^ 33) := never_correct (by decide) (by decide)

/-- For two elements the height is `31 - 63 + 1`, and no call is answered. -/
theorem two_without_height : ln 2 = none ∧ (start 2).run [.getSum 0 1] = none ∧ ¬Correct 2 :=
  ⟨rfl, rfl, not_correct_of_le (by decide) (by decide)⟩

end LazySegTree

end UniAlloc.BitmapAlloc
