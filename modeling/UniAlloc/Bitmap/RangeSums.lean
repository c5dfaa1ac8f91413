import Mathlib.Algebra.BigOperators.Ring.Finset
import Mathlib.Algebra.Order.BigOperators.Group.Finset
import UniAlloc.Bitmap.CommutativeTree

/-!
# The answers of the range tree

A call whose range is empty or reaches to an end of the array leaves the second loop with
nothing to do, and keeps the sums in step with the tags. The second loop counts for
any other range what the first has counted already.
-/

namespace UniAlloc.BitmapAlloc

namespace CommutativeTree

open Boundary

variable {N k l r L R j J fuel : Nat} {self : CommutativeTree N} {v ans : U32} {w : Walk}

/-- The walk of a call whose paths meet at height `J`. -/
structure Walks (N L R J : Nat) : Prop extends Meets L R J where
  lt : L < R
  low : N ≤ L + 1
  high : R ≤ 2 * N

theorem Walks.node_lt (walks : Walks N L R J) (p : Path) (hp : p.start ≤ R) (j : Nat) :
    p.node (j + 1) < 2 * N := by
  have := Nat.div_le_div_right (c := 2 ^ j * 2) hp
  have := Nat.div_le_self R (2 ^ j * 2)
  have := walks.lt
  have := walks.high
  rw [Path.node, Nat.pow_succ]
  have : R / (2 ^ j * 2) < R := Nat.div_lt_self (by omega) (by have := Nat.two_pow_pos j; omega)
  omega

theorem addWhile_spec (self : CommutativeTree N) (v : U32) (walks : Walks N L R J) (hj : j ≤ J)
    (hfuel : J - j < fuel) :
    addWhile v fuel (added self L R v j) (walk L R j) = some (added self L R v J, walk L R J) := by
  induction fuel generalizing j with
  | zero => omega
  | succ fuel ih =>
      rw [addWhile]
      obtain rfl | hlt := Nat.eq_or_lt_of_le hj
      · exact if_neg (not_not.mpr walks.xor_eq_zero)
      · have left_in := walks.apart.within_left walks.lt walks.low walks.high
        have right_in := walks.apart.within_right walks.lt walks.low walks.high
        have hround := addRound_spec self v
          (fun i hi => left_in i (by omega)) (fun i hi => right_in i (by omega))
          (walks.node_lt (left L) walks.lt.le j) (walks.node_lt (right R) (Nat.le_refl R) j)
        have happart : (walk L R j).l ^^^ (walk L R j).r ^^^ 1 ≠ 0 := walks.apart j hlt
        rw [if_pos happart, hround, Option.bind_eq_bind, Option.bind_some]
        exact ih hlt (by omega)

theorem sumWhile_spec (self : CommutativeTree N) (walks : Walks N L R J) (hj : j ≤ J)
    (hfuel : J - j < fuel) :
    self.sumWhile fuel (collected self L R j) (walk L R j) =
      some (collected self L R J, walk L R J) := by
  induction fuel generalizing j with
  | zero => omega
  | succ fuel ih =>
      rw [sumWhile]
      obtain rfl | hlt := Nat.eq_or_lt_of_le hj
      · exact if_neg (not_not.mpr walks.xor_eq_zero)
      · have left_in := walks.apart.within_left walks.lt walks.low walks.high
        have right_in := walks.apart.within_right walks.lt walks.low walks.high
        have hround := sumRound_spec self
          (fun i hi => left_in i (by omega)) (fun i hi => right_in i (by omega))
          (walks.node_lt (left L) walks.lt.le j) (walks.node_lt (right R) (Nat.le_refl R) j)
        have happart : (walk L R j).l ^^^ (walk L R j).r ^^^ 1 ≠ 0 := walks.apart j hlt
        rw [if_pos happart, hround, Option.bind_eq_bind, Option.bind_some]
        exact ih hlt (by omega)

/-- Where nothing has been counted the second loop changes nothing. -/
theorem addTail_of_zero (hlc : w.lc = 0) (hrc : w.rc = 0) (hl : w.l < 2 * N) (hr : w.r < 2 * N)
    (hfuel : w.l < 2 ^ fuel) : addTail v (fuel + 1) self w = some self := by
  induction fuel generalizing w with
  | zero =>
      rw [addTail, if_neg]
      omega
  | succ fuel ih =>
      rw [addTail]
      split
      · rw [hlc, hrc, mul_zero, addSum_of_lt _ _ hl, Option.bind_eq_bind, Option.bind_some,
          addSum_of_lt _ _ hr, Option.bind_some, Pi.single_zero, Pi.single_zero, add_zero, add_zero]
        apply ih rfl rfl
        · exact (Nat.shiftRight_le w.l 1).trans_lt hl
        · exact (Nat.shiftRight_le w.r 1).trans_lt hr
        · rw [Nat.pow_succ] at hfuel
          simp only [Nat.shiftRight_one]
          omega
      · rfl

theorem sumTail_of_zero (hlc : w.lc = 0) (hrc : w.rc = 0) (hl : w.l < 2 * N) (hr : w.r < 2 * N)
    (hfuel : w.l < 2 ^ fuel) : self.sumTail (fuel + 1) ans w = some ans := by
  induction fuel generalizing w ans with
  | zero =>
      rw [sumTail, if_neg]
      omega
  | succ fuel ih =>
      rw [sumTail]
      split
      · rw [hlc, hrc, sumTags_of_lt _ _ _ hl hr, mul_zero, mul_zero, add_zero,
          Option.bind_eq_bind, Option.bind_some, add_zero]
        apply ih rfl rfl
        · exact (Nat.shiftRight_le w.l 1).trans_lt hl
        · exact (Nat.shiftRight_le w.r 1).trans_lt hr
        · rw [Nat.pow_succ] at hfuel
          simp only [Nat.shiftRight_one]
          omega
      · rfl

theorem exists_walks (hk : 1 ≤ k) (hsize : 8 * 2 ^ k ≤ ISIZE_MAX) (hlr : l ≤ r) (hr : r ≤ 2 ^ k) :
    ∃ J < 64, Walks (2 ^ k) (l + 2 ^ k - 1) (r + 2 ^ k) J := by
  have hpow : 2 ^ 1 ≤ 2 ^ k := Nat.pow_le_pow_right (by omega) hk
  rw [ISIZE_MAX] at hsize
  obtain ⟨J, hJ, meets⟩ := exists_meets (l := l + 2 ^ k - 1) (r := r + 2 ^ k) (m := 64)
    (by omega) (by omega)
  exact ⟨J, hJ, meets, by omega, by omega, by omega⟩

/-- A walk along a range that is empty or reaches to an end of the array passes nothing or
ends above the root. -/
theorem Walks.passes (walks : Walks (2 ^ k) (l + 2 ^ k - 1) (r + 2 ^ k) J)
    (touches : l = r ∨ l = 0 ∨ r = 2 ^ k) :
    (left (l + 2 ^ k - 1)).node J = 0 ∧ k ≤ J ∨
      (left (l + 2 ^ k - 1)).covered J = ∅ ∧ (right (r + 2 ^ k)).covered J = ∅ := by
  have hpow := Nat.two_pow_pos k
  obtain rfl | hends := touches
  · right
    have hsum := sum_covered (fun _ => 1) walks.meet
    rw [show l + 2 ^ k - 1 + 1 = l + 2 ^ k by omega, Finset.Ico_self, Finset.sum_empty,
      ← Finset.card_eq_sum_ones, ← Finset.card_eq_sum_ones, Nat.add_eq_zero_iff,
      Finset.card_eq_zero, Finset.card_eq_zero] at hsum
    exact hsum
  · left
    have hzero : (left (l + 2 ^ k - 1)).node J = 0 := by
      apply node_eq_zero (k := k) _ walks.even walks.meet
      omega
    exact ⟨hzero, le_of_node_eq_zero (by omega) hzero⟩

/-- The second loop starts at nodes of the tree. -/
theorem Walks.exit_lt (walks : Walks N L R J) (hN : 8 * N ≤ ISIZE_MAX) :
    (walk L R J).l < 2 * N ∧ (walk L R J).r < 2 * N ∧ (walk L R J).l < 2 ^ 63 := by
  have hle : (walk L R J).l ≤ L := Nat.div_le_self L (2 ^ J)
  have hmeet : (walk L R J).r = (walk L R J).l + 1 := walks.meet
  have heven : (walk L R J).l % 2 = 0 := walks.even
  have := walks.lt
  have := walks.high
  rw [ISIZE_MAX] at hN
  omega

theorem Walks.addTail (walks : Walks (2 ^ k) (l + 2 ^ k - 1) (r + 2 ^ k) J)
    (touches : l = r ∨ l = 0 ∨ r = 2 ^ k) (hsize : 8 * 2 ^ k ≤ ISIZE_MAX)
    (self : CommutativeTree (2 ^ k)) :
    addTail v 64 self (walk (l + 2 ^ k - 1) (r + 2 ^ k) J) = some self := by
  obtain ⟨hzero, -⟩ | ⟨hleft, hright⟩ := walks.passes touches
  · have hroot : ¬1 < (walk (l + 2 ^ k - 1) (r + 2 ^ k) J).l := by
      change ¬1 < (left (l + 2 ^ k - 1)).node J
      omega
    rw [CommutativeTree.addTail, if_neg hroot]
  · obtain ⟨hl, hr, hfuel⟩ := walks.exit_lt hsize
    exact addTail_of_zero (count_of_empty hleft) (count_of_empty hright) hl hr hfuel

theorem Walks.sumTail (walks : Walks (2 ^ k) (l + 2 ^ k - 1) (r + 2 ^ k) J)
    (touches : l = r ∨ l = 0 ∨ r = 2 ^ k) (hsize : 8 * 2 ^ k ≤ ISIZE_MAX)
    (self : CommutativeTree (2 ^ k)) (ans : U32) :
    self.sumTail 64 ans (walk (l + 2 ^ k - 1) (r + 2 ^ k) J) = some ans := by
  obtain ⟨hzero, -⟩ | ⟨hleft, hright⟩ := walks.passes touches
  · have hroot : ¬1 < (walk (l + 2 ^ k - 1) (r + 2 ^ k) J).l := by
      change ¬1 < (left (l + 2 ^ k - 1)).node J
      omega
    rw [CommutativeTree.sumTail, if_neg hroot]
  · obtain ⟨hl, hr, hfuel⟩ := walks.exit_lt hsize
    exact sumTail_of_zero (count_of_empty hleft) (count_of_empty hright) hl hr hfuel

theorem start_eq (l r : Nat) : start N l r = walk (l + N - 1) (r + N) 0 := by
  simp [start, walk, count, Path.covered, left, right]

theorem Walks.add_eq (walks : Walks (2 ^ k) (l + 2 ^ k - 1) (r + 2 ^ k) J) (hJ : J < 64)
    (touches : l = r ∨ l = 0 ∨ r = 2 ^ k) (hsize : 8 * 2 ^ k ≤ ISIZE_MAX)
    (self : CommutativeTree (2 ^ k)) :
    self.add l r v = some (added self (l + 2 ^ k - 1) (r + 2 ^ k) v J) := by
  have hstart : added self (l + 2 ^ k - 1) (r + 2 ^ k) v 0 = self := by
    rw [added]
    simp only [Path.marks, Path.credits, add_zero]
  have hwhile := addWhile_spec self v walks (Nat.zero_le J) hJ
  rw [hstart] at hwhile
  rw [add, start_eq, hwhile, Option.bind_eq_bind, Option.bind_some]
  exact walks.addTail touches hsize _

theorem Walks.getSum_eq (walks : Walks (2 ^ k) (l + 2 ^ k - 1) (r + 2 ^ k) J) (hJ : J < 64)
    (touches : l = r ∨ l = 0 ∨ r = 2 ^ k) (hsize : 8 * 2 ^ k ≤ ISIZE_MAX)
    (self : CommutativeTree (2 ^ k)) :
    self.getSum l r = some (collected self (l + 2 ^ k - 1) (r + 2 ^ k) J) := by
  have hstart : collected self (l + 2 ^ k - 1) (r + 2 ^ k) 0 = 0 := by
    rw [collected]
    simp only [Path.query, add_zero]
  have hwhile := sumWhile_spec self walks (Nat.zero_le J) hJ
  rw [hstart] at hwhile
  rw [getSum, start_eq, hwhile, Option.bind_eq_bind, Option.bind_some]
  exact walks.sumTail touches hsize _ _

/-- The tree stands for the array `a`. -/
structure Represents (k : Nat) (tree : CommutativeTree (2 ^ k)) (a : Nat → Nat) : Prop where
  top : tree.tag 0 = 0
  sums : Sums (2 ^ k) tree.tag tree.sum
  leaf : ∀ x < 2 ^ k, weight tree.tag k (2 ^ k + x) = (a x : U32)

theorem represents_new (k : Nat) : Represents k new fun _ => 0 := by
  refine ⟨rfl, ?_, ?_⟩
  · intro h i _
    exact (Finset.sum_eq_zero fun y _ => weight_zero h y).symm
  · intro x _
    exact weight_zero k _

theorem marks_sums (p : Path) (within : p.Within (2 ^ k) J)
    (hend : k ≤ J ∨ p.covered J = ∅) : Sums (2 ^ k) (p.marks v J) (p.credits v J) := by
  intro h i node
  obtain hJ | hempty := hend
  · exact Path.credits_sums within node (node.height_le.trans hJ)
  · obtain ⟨hmarks, hcredits⟩ := p.marks_credits_of_empty (v := v) hempty
    rw [hmarks, hcredits]
    exact (Finset.sum_eq_zero fun y _ => weight_zero h y).symm

theorem Walks.ends (walks : Walks (2 ^ k) (l + 2 ^ k - 1) (r + 2 ^ k) J)
    (touches : l = r ∨ l = 0 ∨ r = 2 ^ k) :
    (k ≤ J ∨ (left (l + 2 ^ k - 1)).covered J = ∅) ∧ (k ≤ J ∨ (right (r + 2 ^ k)).covered J = ∅) := by
  obtain ⟨-, hJ⟩ | ⟨hleft, hright⟩ := walks.passes touches
  · exact ⟨.inl hJ, .inl hJ⟩
  · exact ⟨.inr hleft, .inr hright⟩

/-- Up to the root a path marks the leaves that it passes. -/
theorem weight_marks_root (p : Path) (within : p.Within (2 ^ k) J)
    (hend : k ≤ J ∨ p.covered J = ∅) {x : Nat} (hx : x < 2 ^ k) :
    weight (p.marks v J) k (2 ^ k + x) = if 2 ^ k + x ∈ p.covered J then v else 0 := by
  obtain hJ | hempty := hend
  · have hzero : p.marks v J 0 = 0 := p.marks_zero within (Nat.two_pow_pos k)
    rw [← weight_of_le hzero (by omega) hJ, Path.weight_marks within (by omega) (by omega),
      show min (J + 1) J = J by omega]
  · rw [(p.marks_credits_of_empty hempty).1, weight_zero, hempty, if_neg (Finset.notMem_empty _)]

theorem plainAdd_cast (a : Nat → Nat) (l r : Nat) (v : U32) (x : Nat) :
    ((plainAdd a l r v.toNat x : Nat) : U32) = a x + if l ≤ x ∧ x < r then v else 0 := by
  rw [plainAdd]
  split
  · rw [Nat.cast_add]
    congr 1
    exact BitVec.ofNat_toNat 32 v
  · rw [add_zero]

/-- `add` adds to the plain array. -/
theorem Represents.add {self : CommutativeTree (2 ^ k)} {a : Nat → Nat}
    (rep : Represents k self a) (walks : Walks (2 ^ k) (l + 2 ^ k - 1) (r + 2 ^ k) J)
    (touches : l = r ∨ l = 0 ∨ r = 2 ^ k) (v : U32) :
    Represents k (added self (l + 2 ^ k - 1) (r + 2 ^ k) v J) (plainAdd a l r v.toNat) := by
  have hpow := Nat.two_pow_pos k
  have left_in := walks.apart.within_left walks.lt walks.low walks.high
  have right_in := walks.apart.within_right walks.lt walks.low walks.high
  obtain ⟨left_end, right_end⟩ := walks.ends touches
  refine ⟨?_, ?_, ?_⟩
  · rw [added]
    simp only [Pi.add_apply, rep.top, Path.marks_zero left_in hpow, Path.marks_zero right_in hpow,
      add_zero]
  · have left_sums := marks_sums (v := v) _ left_in left_end
    have right_sums := marks_sums (v := v) _ right_in right_end
    exact (rep.sums.add left_sums).add right_sums
  · intro x hx
    rw [added, weight_add, weight_add, rep.leaf x hx, weight_marks_root _ left_in left_end hx,
      weight_marks_root _ right_in right_end hx, plainAdd_cast, add_assoc]
    congr 1
    apply ite_add_ite_or
    · exact fun hleft => walks.not_mem_right hleft
    · rw [← walks.mem_range]
      omega

/-- `get_sum` sums over the plain array. -/
theorem Represents.collected {self : CommutativeTree (2 ^ k)} {a : Nat → Nat}
    (rep : Represents k self a) (walks : Walks (2 ^ k) (l + 2 ^ k - 1) (r + 2 ^ k) J)
    (touches : l = r ∨ l = 0 ∨ r = 2 ^ k) (hr : r ≤ 2 ^ k) :
    collected self (l + 2 ^ k - 1) (r + 2 ^ k) J = ((∑ x ∈ Finset.Ico l r, a x : Nat) : U32) := by
  have hpow := Nat.two_pow_pos k
  have left_in := walks.apart.within_left walks.lt walks.low walks.high
  have right_in := walks.apart.within_right walks.lt walks.low walks.high
  obtain ⟨left_end, right_end⟩ := walks.ends touches
  have hroot : ∀ (p : Path), p.Within (2 ^ k) J → (k ≤ J ∨ p.covered J = ∅) →
      ∑ y ∈ p.covered J, weight self.tag J y = ∑ y ∈ p.covered J, weight self.tag k y := by
    intro p within hend
    obtain hJ | hempty := hend
    · apply Finset.sum_congr rfl
      intro y hy
      exact weight_of_le rep.top (within.mem_leaves hy).2 hJ
    · rw [hempty, Finset.sum_empty, Finset.sum_empty]
  have hshift : ∑ y ∈ Finset.Ico (l + 2 ^ k) (r + 2 ^ k), weight self.tag k y =
      ∑ x ∈ Finset.Ico l r, weight self.tag k (2 ^ k + x) := by
    rw [Finset.sum_Ico_add]
  rw [CommutativeTree.collected, Path.query_eq left_in rep.sums, Path.query_eq right_in rep.sums,
    hroot _ left_in left_end, hroot _ right_in right_end, sum_covered _ walks.meet,
    show l + 2 ^ k - 1 + 1 = l + 2 ^ k by omega, hshift, Nat.cast_sum]
  apply Finset.sum_congr rfl
  intro x hx
  rw [Finset.mem_Ico] at hx
  exact rep.leaf x (by omega)

theorem run_represents {self : CommutativeTree (2 ^ k)} {a : Nat → Nat} {calls : List Call}
    (hk : 1 ≤ k) (hsize : 8 * 2 ^ k ≤ ISIZE_MAX) (hin : ∀ c ∈ calls, c.In (2 ^ k))
    (touches : ∀ c ∈ calls, c.Touches (2 ^ k)) (rep : Represents k self a)
    (htotal : ∑ x ∈ Finset.range (2 ^ k), a x + total calls < 2 ^ 32) :
    ∃ tree answers, self.run calls = some (tree, answers) ∧
      answers.map BitVec.toNat = plainRun a calls := by
  induction calls generalizing self a with
  | nil => exact ⟨self, [], rfl, rfl⟩
  | cons c calls ih =>
      have ⟨hlr, hr⟩ := hin c List.mem_cons_self
      have ctouches : c.range.1 = c.range.2 ∨ c.range.1 = 0 ∨ c.range.2 = 2 ^ k :=
        touches c List.mem_cons_self
      have hin' : ∀ d ∈ calls, d.In (2 ^ k) := fun d hd => hin d (List.mem_cons_of_mem c hd)
      have touches' : ∀ d ∈ calls, d.Touches (2 ^ k) := fun d hd =>
        touches d (List.mem_cons_of_mem c hd)
      obtain ⟨J, hJ, walks⟩ := exists_walks hk hsize hlr hr
      rw [total_cons, ← Nat.add_assoc] at htotal
      cases c with
      | add l r v =>
          dsimp only [Call.range] at hr ctouches walks
          rw [Call.added, ← sum_plainAdd a v.toNat hr] at htotal
          obtain ⟨tree, answers, hrun, hans⟩ := ih hin' touches' (rep.add walks ctouches v) htotal
          refine ⟨tree, answers, ?_, hans⟩
          rw [run, walks.add_eq hJ ctouches hsize, Option.bind_eq_bind, Option.bind_some, hrun]
      | getSum l r =>
          dsimp only [Call.range] at hr ctouches walks
          obtain ⟨tree, answers, hrun, hans⟩ := ih hin' touches' rep htotal
          have hle : ∑ x ∈ Finset.Ico l r, a x ≤ ∑ x ∈ Finset.range (2 ^ k), a x := by
            apply Finset.sum_le_sum_of_subset
            intro x hx
            rw [Finset.mem_Ico] at hx
            exact Finset.mem_range.mpr (Nat.lt_of_lt_of_le hx.2 hr)
          refine ⟨tree, collected self (l + 2 ^ k - 1) (r + 2 ^ k) J :: answers, ?_, ?_⟩
          · rw [run, walks.getSum_eq hJ ctouches hsize, Option.bind_eq_bind, Option.bind_some, hrun]
            rfl
          · rw [List.map_cons, hans, rep.collected walks ctouches hr, plainRun]
            congr 1
            exact Nat.mod_eq_of_lt (by omega)

/-- The answers do not depend on the order of additions. -/
theorem run_perm {adds adds' : List (Nat × Nat × U32)} {calls : List Call} (hk : 1 ≤ k)
    (hsize : 8 * 2 ^ k ≤ ISIZE_MAX) (hperm : adds.Perm adds')
    (hin : ∀ c ∈ additions adds ++ calls, c.In (2 ^ k))
    (touches : ∀ c ∈ additions adds ++ calls, c.Touches (2 ^ k))
    (htotal : total (additions adds ++ calls) < 2 ^ 32) :
    ((new : CommutativeTree (2 ^ k)).run (additions adds ++ calls)).map Prod.snd =
      ((new : CommutativeTree (2 ^ k)).run (additions adds' ++ calls)).map Prod.snd := by
  have hcalls : (additions adds ++ calls).Perm (additions adds' ++ calls) :=
    (hperm.map _).append_right calls
  have hzero : ∑ x ∈ Finset.range (2 ^ k), (fun _ => 0) x = 0 := Finset.sum_const_zero
  obtain ⟨tree, answers, hrun, hans⟩ := run_represents hk hsize hin touches (represents_new k)
    (by rwa [hzero, Nat.zero_add])
  obtain ⟨tree', answers', hrun', hans'⟩ := run_represents hk hsize
    (fun c hc => hin c (hcalls.mem_iff.mpr hc)) (fun c hc => touches c (hcalls.mem_iff.mpr hc))
    (represents_new k)
    (by rwa [hzero, Nat.zero_add, total, ← (hcalls.map Call.added).sum_eq])
  rw [plainRun_perm hperm] at hans
  have heq : answers = answers' :=
    List.map_injective_iff.mpr (fun _ _ => BitVec.eq_of_toNat_eq) (hans.trans hans'.symm)
  rw [hrun, hrun', Option.map_some, Option.map_some, heq]

/-- As long as every range is empty or reaches to an end of the array, the tree gives the
answers of the plain array. -/
theorem run_touches {calls : List Call} (hk : 1 ≤ k) (hsize : 8 * 2 ^ k ≤ ISIZE_MAX)
    (hin : ∀ c ∈ calls, c.In (2 ^ k)) (touches : ∀ c ∈ calls, c.Touches (2 ^ k))
    (htotal : total calls < 2 ^ 32) :
    ∃ tree answers, (new : CommutativeTree (2 ^ k)).run calls = some (tree, answers) ∧
      answers.map BitVec.toNat = plainRun (fun _ => 0) calls := by
  apply run_represents hk hsize hin touches (represents_new k)
  rwa [Finset.sum_const_zero, Nat.zero_add]

/-- Two ranges that reach to the ends overlap in the middle, which is asked for up to its end. -/
theorem run_touches_four : ∃ tree answers,
    (new : CommutativeTree (2 ^ 2)).run [.add 0 3 5, .add 1 4 2, .getSum 1 4] =
      some (tree, answers) ∧
    answers.map BitVec.toNat =
      plainRun (fun _ => 0) [.add 0 3 5, .add 1 4 2, .getSum 1 4] := by
  apply run_touches
  · decide
  · decide
  · simp [Call.In, Call.range]
  · simp [Call.Touches, Call.range]
  · decide

/-- The second loop counts the range again below the root and never at the root: of the one
element that was added the sum up to it has two. -/
theorem interior_counted_twice :
    Call.In 4 (.add 1 3 1) ∧ Call.In 4 (.getSum 0 2) ∧ total [.add 1 3 1, .getSum 0 2] = 2 ∧
    ((new : CommutativeTree 4).run [.add 1 3 1, .getSum 0 2]).map Prod.snd = some [2] ∧
      plainRun (fun _ => 0) [.add 1 3 1, .getSum 0 2] = [1] :=
  ⟨by simp [Call.In, Call.range], by simp [Call.In, Call.range], rfl, rfl, rfl⟩

end CommutativeTree

end UniAlloc.BitmapAlloc
