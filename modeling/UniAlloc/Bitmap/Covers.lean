import Mathlib.Data.Nat.Factorization.Basic
import UniAlloc.Bitmap.CommutativeBitmap
import UniAlloc.Boundary.Marks

/-!
# The answers of the range tree over bits

A range that is not empty cannot be added without a panic unless it leaves out the leaves.
Then a node above the leaves has been taken as a whole, and a query of one position, which
starts among the inner nodes, counts twice or more.
-/

namespace UniAlloc.BitmapAlloc

namespace CommutativeBitmap

open Boundary

variable {N k l r L R j J fuel h i x d t : Nat} {self : CommutativeBitmap N} {v a ans : U8}
  {w w' : Walk}

/-- A node of height `h` is the only one that is marked above and below it. -/
structure Taken (bitmap : CommutativeBitmap N) (h s : Nat) : Prop where
  node : Node (N * 8) h s
  inner : s < N * 8
  ne_root : s ≠ 1
  tag : ∀ y ∈ below h s, ∀ j, bitmap.tag (y / 2 ^ j) = if j = h then 1 else 0
  sum : ∀ y ∈ below h s, ∀ j ≤ h, bitmap.sum.sum (y / 2 ^ j) = if j = h then 2 ^ h else 0

/-- The siblings that one path of an addition passes are taken. -/
theorem taken_of_path {p q : Path} (hp : p.Within (N * 8) J) (hq : q.Within (N * 8) J)
    (hdisj : Disjoint (p.covered J) (q.covered J))
    (htag : self.tag = p.marks 1 J + q.marks 1 J)
    (hsum : self.sum.sum = p.credits 1 J + q.credits 1 J) (hh : h < J) (htakes : p.Takes h)
    (hinner : p.sibling h < N * 8) (hroot : p.sibling h ≠ 1) : Taken self h (p.sibling h) := by
  have node := hp h hh htakes
  have hpassed : ∀ y ∈ below h (p.sibling h), y ∈ p.covered J := fun y hy =>
    (Path.mem_covered_iff htakes hy).mpr hh
  refine ⟨node, hinner, hroot, ?_, ?_⟩
  · intro y hy j
    obtain ⟨hlo, hhi⟩ := node.mem_leaves hy
    have hnot : y ∉ q.covered J := Finset.disjoint_left.mp hdisj (hpassed y hy)
    rw [htag, Pi.add_apply, Path.marks_of_taken hp hh htakes hy,
      Path.marks_of_notMem hq hlo hhi hnot, add_zero]
  · intro y hy j hj
    have hnode := node.div hy hj
    have hnot : Disjoint (below j (y / 2 ^ j)) (q.covered J) := by
      apply hdisj.mono_left
      intro z hz
      exact hpassed z (below_subset hy hj hz)
    rw [hsum, Pi.add_apply, Path.credits_of_taken hp hh htakes hy hj hnode,
      Path.credits_of_disjoint hq hnode (hj.trans hh.le) hnot, add_zero, one_mul]

/-- The root is not passed on the way from a range that ends before the last leaf. -/
theorem Walks.sibling_ne_one {p : Path} (walks : Walks (2 ^ k) L R J) (hlt : L < R)
    (hR : R < 2 * (2 ^ k * 8)) (node : Node (2 ^ k * 8) h (p.sibling h)) (hh : h < J) :
    p.sibling h ≠ 1 := by
  intro hone
  have hpow : 2 ^ k * 8 = 2 ^ (k + 3) := by rw [Nat.pow_add]
  have hle : k + 3 ≤ h := by
    obtain ⟨hlo, -⟩ := node
    rw [hone, Nat.one_mul, hpow] at hlo
    exact (Nat.pow_le_pow_iff_right Nat.one_lt_two).mp hlo
  have hright : (right R).node h < 2 := by
    apply Nat.div_lt_of_lt_mul
    have := Nat.pow_le_pow_right (n := 2) (by omega) hle
    change R < 2 ^ h * 2
    omega
  have hnode := walks.apart.node_lt hlt hh.le
  apply walks.apart h hh
  have hl : (left L).node h = 0 := by omega
  have hr : (right R).node h = 1 := by omega
  rw [hl, hr]
  rfl

/-- An addition of a range that is not empty takes a node above the leaves. -/
theorem exists_taken {self : CommutativeBitmap (2 ^ k)} (hlr : l < r) (hr : r ≤ 8 * 2 ^ k)
    (hadd : (new : CommutativeBitmap (2 ^ k)).add l r 1 = some self) :
    ∃ h s, 1 ≤ h ∧ Taken self h s := by
  have hpow := Nat.two_pow_pos k
  obtain ⟨J, walks, rfl⟩ := add_eq_some hpow hlr.le hadd
  have hL : 2 ^ k * 8 ≤ l + 2 ^ k * 8 - 1 + 1 := by omega
  have hlt : l + 2 ^ k * 8 - 1 < r + 2 ^ k * 8 := by omega
  have left_in := walks.apart.within_left hlt hL (by omega)
  have right_in := walks.apart.within_right hlt hL (by omega)
  have hdisj : Disjoint ((left (l + 2 ^ k * 8 - 1)).covered J)
      ((right (r + 2 ^ k * 8)).covered J) :=
    Finset.disjoint_left.mpr fun y hy => walks.not_mem_right hy
  have hJ : 0 < J := by
    have := walks.meet
    rw [Nat.pos_iff_ne_zero]
    rintro rfl
    rw [Path.node_zero, Path.node_zero, left, right] at this
    dsimp only at this
    omega
  have hR : r + 2 ^ k * 8 < 2 * (2 ^ k * 8) := by
    have := (walks.inner 0 hJ).node
    rw [Path.node_succ, Path.node_zero, right] at this
    dsimp only at this
    omega
  have hheight : ∀ {h s}, Node (2 ^ k * 8) h s → s < 2 ^ k * 8 → 1 ≤ h := by
    intro h s node hs
    rw [Nat.one_le_iff_ne_zero]
    rintro rfl
    obtain ⟨hlo, -⟩ := node
    omega
  have hfirst : l + 2 ^ k * 8 - 1 < l + 2 ^ k * 8 ∧ l + 2 ^ k * 8 < r + 2 ^ k * 8 := by omega
  obtain hy | hy := walks.mem_range.mp hfirst
  · obtain ⟨h, hh, htakes, -⟩ := Path.exists_taken hy
    have hinner := (walks.inner h hh).left htakes
    have hroot := walks.sibling_ne_one hlt hR (left_in h hh htakes) hh
    exact ⟨h, _, hheight (left_in h hh htakes) hinner,
      taken_of_path left_in right_in hdisj rfl rfl hh htakes hinner hroot⟩
  · obtain ⟨h, hh, htakes, -⟩ := Path.exists_taken hy
    have hinner := (walks.inner h hh).right htakes
    have hroot := walks.sibling_ne_one hlt hR (right_in h hh htakes) hh
    exact ⟨h, _, hheight (right_in h hh htakes) hinner,
      taken_of_path right_in left_in hdisj.symm (add_comm _ _) (add_comm _ _) hh htakes hinner
        hroot⟩

/-- From here on a query counts the marks above the node `i`. -/
def Counts (w : Walk) (i : Nat) : Prop :=
  w.lc = 1 ∧ w.rc = 0 ∧ i = w.l ∨ w.lc = 0 ∧ w.rc = 1 ∧ i = w.r

theorem Counts.shiftRight (counts : Counts w i) (k : U8) :
    Counts ⟨w.l >>> 1, w.r >>> 1, w.lc, w.rc, k⟩ (i / 2) := by
  rw [← Nat.shiftRight_one]
  obtain ⟨hlc, hrc, rfl⟩ | ⟨hlc, hrc, rfl⟩ := counts
  · exact .inl ⟨hlc, hrc, rfl⟩
  · exact .inr ⟨hlc, hrc, rfl⟩

theorem sumTags_eq_some {lc rc : U8} (hsum : self.sumTags l r lc rc = some a) :
    a = self.tag l * lc + self.tag r * rc := by
  obtain ⟨s, hs, hsum⟩ := Option.bind_eq_some_iff.mp hsum
  obtain ⟨t, ht, hsum⟩ := Option.bind_eq_some_iff.mp hsum
  rw [getTag] at hs ht
  split at hs
  · split at ht
    · rw [← Option.some.inj hs, ← Option.some.inj ht] at hsum
      exact (Option.some.inj hsum).symm
    · exact absurd ht nofun
  · exact absurd hs nofun

theorem Counts.tags (counts : Counts w i) :
    self.tag w.l * w.lc + self.tag w.r * w.rc = self.tag i := by
  obtain ⟨hlc, hrc, rfl⟩ | ⟨hlc, hrc, rfl⟩ := counts
  · rw [hlc, hrc, mul_one, mul_zero, add_zero]
  · rw [hlc, hrc, mul_one, mul_zero, zero_add]

/-- A round that starts between two siblings' children takes no sibling. -/
theorem sumRound_eq_some (counts : Counts w i) (hl : w.l % 2 = 1) (hr : w.r % 2 = 0)
    (hround : self.sumRound ans w = some (a, w')) :
    a = ans + self.tag (i / 2) ∧ w' = ⟨w.l >>> 1, w.r >>> 1, w.lc, w.rc, w.k <<< 1⟩ := by
  simp only [sumRound, sumSide, hl, hr, Nat.one_ne_zero, Nat.zero_ne_one, decide_false,
    Bool.false_eq_true, if_false, Option.bind_eq_bind, Option.bind_some] at hround
  obtain ⟨s, htags, hround⟩ := Option.bind_eq_some_iff.mp hround
  obtain ⟨rfl, rfl⟩ := Prod.mk.inj (Option.some.inj hround)
  rw [sumTags_eq_some htags]
  exact ⟨congrArg (ans + ·) (counts.shiftRight w.k).tags, rfl⟩

theorem sumWhile_eq_some (counts : Counts w i) (hnext : w.r = w.l + 1) (ht : t % 2 = 1)
    (hr : w.r = t * 2 ^ d) (hsum : self.sumWhile fuel ans w = some (a, w')) :
    Counts w' (i / 2 ^ d) ∧ w'.l + 1 = t ∧
      a = ans + ∑ j ∈ Finset.range d, self.tag (i / 2 ^ (j + 1)) := by
  induction d generalizing w i ans fuel with
  | zero =>
      rw [Nat.pow_zero, Nat.mul_one] at hr
      cases fuel with
      | zero => exact absurd hsum nofun
      | succ fuel =>
          have hmeet : w.l ^^^ w.r ^^^ 1 = 0 := (siblings_iff (by omega)).mpr ⟨by omega, hnext⟩
          rw [sumWhile, if_neg (not_not.mpr hmeet)] at hsum
          obtain ⟨rfl, rfl⟩ := Prod.mk.inj (Option.some.inj hsum)
          rw [Nat.pow_zero, Nat.div_one, Finset.sum_range_zero, add_zero]
          exact ⟨counts, by omega, rfl⟩
  | succ d ih =>
      rw [Nat.pow_succ, ← Nat.mul_assoc] at hr
      cases fuel with
      | zero => exact absurd hsum nofun
      | succ fuel =>
          have hne : w.l ^^^ w.r ^^^ 1 ≠ 0 := by
            intro hmeet
            have := (siblings_iff (by omega)).mp hmeet
            omega
          rw [sumWhile, if_pos hne] at hsum
          obtain ⟨⟨b, u⟩, hround, hsum⟩ := Option.bind_eq_some_iff.mp hsum
          obtain ⟨rfl, rfl⟩ := sumRound_eq_some counts (by omega) (by omega) hround
          have hnext' : w.r >>> 1 = w.l >>> 1 + 1 := by
            rw [Nat.shiftRight_one, Nat.shiftRight_one]
            omega
          have hr' : w.r >>> 1 = t * 2 ^ d := by
            rw [Nat.shiftRight_one]
            omega
          obtain ⟨counts', hl, rfl⟩ := ih (counts.shiftRight _) hnext' hr' hsum
          rw [Nat.div_div_eq_div_mul, ← Nat.pow_succ'] at counts'
          refine ⟨counts', hl, ?_⟩
          rw [Finset.sum_range_succ', Nat.zero_add, Nat.pow_one, add_assoc, add_comm (self.tag _)]
          congr 2
          apply Finset.sum_congr rfl
          intro j _
          rw [Nat.div_div_eq_div_mul, ← Nat.pow_succ']

theorem sumTail_eq_some (counts : Counts w i) (hsum : self.sumTail fuel ans w = some a) :
    ∃ m, (1 < w.l → 0 < m) ∧ a = ans + ∑ j ∈ Finset.range m, self.tag (i / 2 ^ j) := by
  induction fuel generalizing w i ans with
  | zero => exact absurd hsum nofun
  | succ fuel ih =>
      rw [sumTail] at hsum
      split at hsum
      · obtain ⟨s, htags, hsum⟩ := Option.bind_eq_some_iff.mp hsum
        obtain ⟨m, -, rfl⟩ := ih (counts.shiftRight w.k) hsum
        refine ⟨m + 1, fun _ => Nat.succ_pos m, ?_⟩
        rw [sumTags_eq_some htags, counts.tags, Finset.sum_range_succ', Nat.pow_zero, Nat.div_one,
          add_assoc, add_comm (self.tag i)]
        congr 2
        apply Finset.sum_congr rfl
        intro j _
        rw [Nat.div_div_eq_div_mul, ← Nat.pow_succ']
      · next hl =>
          refine ⟨0, fun h => absurd h hl, ?_⟩
          rw [Finset.sum_range_zero, add_zero]
          exact (Option.some.inj hsum).symm

/-- The first round reads the sum of the one node between the paths. -/
theorem sumRound_single (hx : 0 < x) (hlt : x < N * 8)
    (hround : self.sumRound 0 ⟨x - 1, x + 1, 0, 0, 1⟩ = some (a, w)) :
    a = self.sum.sum x + self.tag (x / 2) ∧ Counts w (x / 2) ∧ w.r = w.l + 1 ∧
      w.r = (x + 1) / 2 := by
  have hget : self.sum.get x = some (self.sum.sum x) := if_pos hlt
  obtain heven | hodd := Nat.even_or_odd x
  · obtain ⟨m, rfl⟩ := heven
    have hl : (m + m - 1) % 2 = 1 := by omega
    have hr : (m + m + 1) % 2 = 1 := by omega
    have hxor : (m + m + 1) ^^^ 1 = m + m := by
      rw [Nat.xor_one_of_odd (Nat.odd_iff.mpr hr), Nat.add_sub_cancel]
    simp only [sumRound, sumSide, hl, hr, Nat.one_ne_zero, decide_false, decide_true,
      Bool.false_eq_true, if_false, if_true, Option.bind_eq_bind, Option.bind_some, Option.pure_def,
      hxor, hget] at hround
    obtain ⟨s, htags, hround⟩ := Option.bind_eq_some_iff.mp hround
    obtain ⟨rfl, rfl⟩ := Prod.mk.inj (Option.some.inj hround)
    have hl' : (m + m - 1) >>> 1 + 1 = m := by
      rw [Nat.shiftRight_one]
      omega
    have hr' : (m + m + 1) >>> 1 = m := by
      rw [Nat.shiftRight_one]
      omega
    have hdiv : (m + m) / 2 = m := by omega
    rw [sumTags_eq_some htags, hr', hdiv, mul_zero, zero_add, zero_add, zero_add, mul_one]
    refine ⟨rfl, .inr ⟨rfl, rfl, rfl⟩, hl'.symm, ?_⟩
    dsimp only
    omega
  · obtain ⟨m, rfl⟩ := hodd
    have hl : (2 * m + 1 - 1) % 2 = 0 := by omega
    have hr : (2 * m + 1 + 1) % 2 = 0 := by omega
    have hxor : (2 * m + 1 - 1) ^^^ 1 = 2 * m + 1 := by
      rw [Nat.xor_one_of_even (Nat.even_iff.mpr hl), Nat.add_sub_cancel]
    simp only [sumRound, sumSide, hl, hr, Nat.zero_ne_one, decide_false, decide_true,
      Bool.false_eq_true, if_false, if_true, Option.bind_eq_bind, Option.bind_some, Option.pure_def,
      hxor, hget] at hround
    obtain ⟨s, htags, hround⟩ := Option.bind_eq_some_iff.mp hround
    obtain ⟨rfl, rfl⟩ := Prod.mk.inj (Option.some.inj hround)
    have hl' : (2 * m + 1 - 1) >>> 1 = m := by
      rw [Nat.shiftRight_one]
      omega
    have hr' : (2 * m + 1 + 1) >>> 1 = m + 1 := by
      rw [Nat.shiftRight_one]
      omega
    have hdiv : (2 * m + 1) / 2 = m := by omega
    rw [sumTags_eq_some htags, hl', hr', hdiv, mul_zero, add_zero, zero_add, zero_add, mul_one]
    refine ⟨rfl, .inl ⟨rfl, rfl, rfl⟩, rfl, ?_⟩
    dsimp only
    omega

/-- A query of one position reads the sum of a node and the marks above it, and of those the
one below which the paths meet is read twice. -/
theorem getSum_eq_some (hN : 0 < N) (hlow : N ≤ x) (hlt : x < N * 8) (ht : t % 2 = 1)
    (hr : (x + 1) / 2 = t * 2 ^ d) (hsum : self.getSum (x - N) (x - N + 1) = some a) :
    ∃ m, (2 < t → 0 < m) ∧
      a = self.sum.sum x + ∑ j ∈ Finset.range (d + 1), self.tag (x / 2 ^ (j + 1)) +
        ∑ j ∈ Finset.range m, self.tag (x / 2 ^ (d + 1 + j)) := by
  rw [getSum, show x - N + N - 1 = x - 1 by omega, show x - N + 1 + N = x + 1 by omega] at hsum
  obtain ⟨⟨b, w'⟩, hwhile, htail⟩ := Option.bind_eq_some_iff.mp hsum
  have hne : x - 1 ^^^ (x + 1) ^^^ 1 ≠ 0 := by
    intro hmeet
    have := ((siblings_iff (by omega)).mp hmeet).2
    omega
  rw [sumWhile, if_pos hne] at hwhile
  obtain ⟨⟨b', w⟩, hround, hwhile⟩ := Option.bind_eq_some_iff.mp hwhile
  obtain ⟨rfl, counts, hnext, hr'⟩ := sumRound_single (by omega) hlt hround
  obtain ⟨counts', hl, rfl⟩ := sumWhile_eq_some counts hnext ht (hr'.trans hr) hwhile
  obtain ⟨m, hm, rfl⟩ := sumTail_eq_some counts' htail
  refine ⟨m, fun h => hm (by omega), ?_⟩
  rw [Finset.sum_range_succ', Nat.zero_add, Nat.pow_one, add_assoc (self.sum.sum x),
    add_comm (self.tag _)]
  congr 1
  · congr 2
    apply Finset.sum_congr rfl
    intro j _
    rw [Nat.div_div_eq_div_mul, ← Nat.pow_succ']
  · apply Finset.sum_congr rfl
    intro j _
    rw [Nat.div_div_eq_div_mul, Nat.div_div_eq_div_mul, ← Nat.pow_add, ← Nat.pow_succ',
      show d + 1 + j = (d + j).succ by omega]

/-- Below a node there is one around which the paths meet at the node and not before. -/
theorem exists_turn {s : Nat} (hs : 2 ≤ s) (e : Nat) :
    ∃ x t d, x / 2 ^ e = s ∧ t % 2 = 1 ∧ (x + 1) / 2 = t * 2 ^ d ∧ (0 < e → d + 1 = e ∧ 2 < t) := by
  cases e with
  | zero =>
      obtain ⟨d, t, hodd, hr⟩ := Nat.exists_eq_two_pow_mul_odd (n := (s + 1) / 2) (by omega)
      exact ⟨s, t, d, by rw [Nat.pow_zero, Nat.div_one], Nat.odd_iff.mp hodd,
        by rw [hr, Nat.mul_comm], by omega⟩
  | succ d =>
      have hpow := Nat.two_pow_pos (d + 1)
      obtain heven | hodd := Nat.mod_two_eq_zero_or_one s
      · refine ⟨(s + 1) * 2 ^ (d + 1) - 1, s + 1, d, ?_, by omega, ?_, fun _ => ⟨rfl, by omega⟩⟩
        · rw [Nat.div_eq_iff hpow, Nat.add_mul, Nat.one_mul]
          omega
        · rw [Nat.sub_add_cancel (Nat.mul_pos (by omega) hpow), Nat.pow_succ, ← Nat.mul_assoc,
            Nat.mul_div_cancel _ Nat.two_pos]
      · refine ⟨s * 2 ^ (d + 1), s, d, Nat.mul_div_cancel _ hpow, hodd, ?_, ?_⟩
        · rw [Nat.pow_succ, ← Nat.mul_assoc]
          omega
        · exact fun _ => ⟨rfl, by omega⟩

/-- Below a node that has been taken there is a position that is counted twice or more. -/
theorem Taken.exists_wrong {s : Nat} (taken : Taken self h s) (hh : 1 ≤ h) (hN : 0 < N) :
    ∃ p < 8 * N, ∀ v, self.getSum p (p + 1) = some v → 2 ≤ v.toNat := by
  have hs : s ≠ 0 := by
    rintro rfl
    have := taken.node.1
    omega
  have hone := taken.ne_root
  -- `get_sum` starts three levels up, so that it reads the node or one of that level below it
  obtain ⟨m, e, hm, hme, hsmall⟩ :
      ∃ m e, 1 ≤ m ∧ m + e = h ∧ (e = 0 ∧ m ≤ 3 ∨ 0 < e ∧ m = 3) := by
    obtain hle | hlt := Nat.lt_or_ge h 4
    · exact ⟨h, 0, hh, rfl, .inl ⟨rfl, by omega⟩⟩
    · exact ⟨3, h - 3, by omega, by omega, .inr ⟨by omega, rfl⟩⟩
  obtain ⟨x, t, d, hx, ht, hr, hmeet⟩ := exists_turn (s := s) (by omega) e
  have hleaf : x * 2 ^ m ∈ below h s := by
    rw [mem_below, ← hme, Nat.pow_add, ← Nat.div_div_eq_div_mul,
      Nat.mul_div_cancel _ (Nat.two_pow_pos m), hx]
  have hdiv : ∀ j, x / 2 ^ j = x * 2 ^ m / 2 ^ (m + j) := by
    intro j
    rw [Nat.pow_add, ← Nat.div_div_eq_div_mul, Nat.mul_div_cancel _ (Nat.two_pow_pos m)]
  have hnode : Node (N * 8) m x := by
    have := taken.node.div hleaf (j := m) (by omega)
    rwa [Nat.mul_div_cancel _ (Nat.two_pow_pos m)] at this
  have hlow : N ≤ x := by
    have := Nat.pow_le_pow_right (n := 2) (by omega) (show m ≤ 3 by omega)
    have := Nat.mul_le_mul_left x this
    have := hnode.1
    omega
  have hlt : x < N * 8 := by
    have := Nat.pow_le_pow_right (n := 2) (by omega) hm
    have := Nat.mul_le_mul_left (x + 1) this
    have := hnode.2
    omega
  refine ⟨x - N, by omega, ?_⟩
  intro v hv
  obtain ⟨n, hn, rfl⟩ := getSum_eq_some hN hlow hlt ht hr hv
  have hsum : self.sum.sum x = if m = h then 2 ^ h else 0 := by
    have := taken.sum _ hleaf m (by omega)
    rwa [Nat.mul_div_cancel _ (Nat.two_pow_pos m)] at this
  have htag : ∀ j, self.tag (x / 2 ^ j) = if j = e then 1 else 0 := by
    intro j
    rw [hdiv, taken.tag _ hleaf]
    exact if_congr (by omega) rfl rfl
  simp only [hsum, htag]
  obtain ⟨rfl, hm3⟩ | ⟨he, rfl⟩ := hsmall
  · have hzero : ∀ j, (if j + 1 = 0 then 1 else 0 : U8) = 0 := fun j => if_neg (by omega)
    have hzero' : ∀ j, (if d + 1 + j = 0 then 1 else 0 : U8) = 0 := fun j => if_neg (by omega)
    simp only [hzero, hzero', Finset.sum_const_zero, add_zero]
    rw [if_pos (by omega : m = h)]
    obtain rfl | rfl | rfl : h = 1 ∨ h = 2 ∨ h = 3 := by omega
    · decide
    · decide
    · decide
  · obtain ⟨rfl, ht2⟩ := hmeet he
    have hlast : ∑ j ∈ Finset.range (d + 1), (if j + 1 = d + 1 then 1 else 0 : U8) = 1 := by
      simp only [Nat.add_right_cancel_iff, Finset.sum_ite_eq', Finset.mem_range, Nat.lt_succ_self,
        if_true]
    have hfirst : ∑ j ∈ Finset.range n, (if d + 1 + j = d + 1 then 1 else 0 : U8) = 1 := by
      simp only [Nat.add_eq_left, Finset.sum_ite_eq', Finset.mem_range, hn ht2, if_true]
    rw [if_neg (by omega), hlast, hfirst]
    decide

theorem addSum_zero (self : CommutativeBitmap N) (hi : i < N * 8) :
    self.addSum i 0 = some self := by
  rw [addSum, CompressedSum.add, if_pos hi, add_zero, Function.update_eq_self]
  rfl

/-- A round that takes no sibling adds nothing. -/
theorem addRound_of_empty (self : CommutativeBitmap N) (hlc : w.lc = 0) (hrc : w.rc = 0)
    (hl : w.l % 2 = 1) (hr : w.r % 2 = 0) (hlt : w.r >>> 1 < N * 8) (hle : w.l ≤ w.r) :
    self.addRound v w = some (self, ⟨w.l >>> 1, w.r >>> 1, 0, 0, w.k <<< 1⟩) := by
  have hlt' : w.l >>> 1 < N * 8 := by
    rw [Nat.shiftRight_one] at hlt ⊢
    omega
  simp only [addRound, addSide, hl, hr, hlc, hrc, Nat.one_ne_zero, Nat.zero_ne_one, decide_false,
    Bool.false_eq_true, if_false, Option.bind_eq_bind, Option.bind_some, mul_zero,
    addSum_zero self hlt, addSum_zero self hlt', Option.pure_def]

/-- The nodes around an empty range meet without a sibling between them. -/
theorem addWhile_of_empty (fuel : Nat) (self : CommutativeBitmap N) (hlc : w.lc = 0)
    (hrc : w.rc = 0) (hnext : w.r = w.l + 1) (hlt : w.r < N * 16) (hfuel : w.r < 2 ^ fuel) :
    ∃ w', addWhile v fuel self w = some (self, w') := by
  induction fuel generalizing w with
  | zero => omega
  | succ fuel ih =>
      rw [addWhile]
      split
      · next hne =>
          have hodd : w.l % 2 = 1 := by
            by_contra heven
            exact hne ((siblings_iff (by omega)).mpr ⟨by omega, hnext⟩)
          have hround := addRound_of_empty (v := v) self hlc hrc hodd (by omega)
            (by rw [Nat.shiftRight_one]; omega) (by omega)
          rw [hround, Option.bind_eq_bind, Option.bind_some]
          rw [Nat.pow_succ] at hfuel
          apply ih rfl rfl
          · dsimp only
            rw [Nat.shiftRight_one, Nat.shiftRight_one]
            omega
          · dsimp only
            rw [Nat.shiftRight_one]
            omega
          · dsimp only
            rw [Nat.shiftRight_one]
            omega
      · exact ⟨w, rfl⟩

theorem add_empty (self : CommutativeBitmap N) (hsize : 25 * N ≤ ISIZE_MAX) (hN : 0 < N)
    (hl : l < 8 * N) : self.add l l 1 = some self := by
  rw [ISIZE_MAX] at hsize
  obtain ⟨w', hwhile⟩ := addWhile_of_empty (v := 1) 64
    (w := ⟨l + N * 8 - 1, l + N * 8, 0, 0, 1⟩) self rfl rfl
    (by dsimp only; omega) (by dsimp only; omega) (by dsimp only; omega)
  rw [add, if_pos (by decide), hwhile]
  rfl

/-- Behind the last leaf even an empty range panics. -/
theorem add_end (self : CommutativeBitmap N) (hN : 0 < N) : self.add (8 * N) (8 * N) 1 = none := by
  have hl : (8 * N + N * 8 - 1) % 2 = 1 := by omega
  have hr : (8 * N + N * 8) % 2 = 0 := by omega
  have hne : (8 * N + N * 8 - 1) ^^^ (8 * N + N * 8) ^^^ 1 ≠ 0 := by
    intro hmeet
    have := (siblings_iff (by omega)).mp hmeet
    omega
  have hlt : (8 * N + N * 8 - 1) >>> 1 < N * 8 := by
    rw [Nat.shiftRight_one]
    omega
  have hend : self.addSum ((8 * N + N * 8) >>> 1) 0 = none := by
    rw [addSum, CompressedSum.add, if_neg]
    · rfl
    · rw [Nat.shiftRight_one]
      omega
  have hround : self.addRound 1 ⟨8 * N + N * 8 - 1, 8 * N + N * 8, 0, 0, 1⟩ = none := by
    simp only [addRound, addSide, hl, hr, Nat.one_ne_zero, Nat.zero_ne_one, decide_false,
      Bool.false_eq_true, if_false, Option.bind_eq_bind, Option.bind_some, mul_zero,
      addSum_zero self hlt, hend, Option.bind_none]
  rw [add, if_pos (by decide), addWhile, if_pos hne, hround]
  rfl

/-- In the bitmap before the first addition a query collects nothing. -/
theorem sumTags_new {lc rc : U8} (hl : l < N * 16) (hr : r < N * 16) :
    (new : CommutativeBitmap N).sumTags l r lc rc = some 0 := by
  rw [sumTags, getTag, getTag, if_pos hl, if_pos hr]
  simp only [new, Pi.zero_apply, zero_mul, add_zero, Option.bind_eq_bind, Option.bind_some,
    Option.pure_def]

theorem get_new (hi : i < N * 16) : (new : CommutativeBitmap N).sum.get i = some 0 := by
  rw [CompressedSum.get]
  split
  · rfl
  · rw [RawBitmap.getBit, if_pos (by omega)]
    simp [new, CompressedSum.new, RawBitmap.new]

theorem sumSide_new (takes : Bool) (c k : U8) (hi : i ^^^ 1 < N * 16) :
    ∃ c', (new : CommutativeBitmap N).sumSide takes i 0 c k = some (0, c') := by
  rw [sumSide]
  split
  · rw [get_new hi]
    exact ⟨c + k, rfl⟩
  · exact ⟨c, rfl⟩

theorem xor_one_le (i : Nat) : i ^^^ 1 ≤ i + 1 := by
  obtain h | h := Nat.even_or_odd i
  · rw [Nat.xor_one_of_even h]
  · rw [Nat.xor_one_of_odd h]
    omega

theorem sumRound_new (hl : w.l + 1 < N * 16) (hr : w.r + 1 < N * 16) :
    ∃ w', (new : CommutativeBitmap N).sumRound 0 w = some (0, w') ∧ w'.l = w.l / 2 ∧
      w'.r = w.r / 2 := by
  obtain ⟨lc, hlc⟩ := sumSide_new (N := N) (i := w.l) (w.l % 2 = 0) w.lc w.k
    ((xor_one_le w.l).trans_lt hl)
  obtain ⟨rc, hrc⟩ := sumSide_new (N := N) (i := w.r) (w.r % 2 = 1) w.rc w.k
    ((xor_one_le w.r).trans_lt hr)
  have htags : (new : CommutativeBitmap N).sumTags (w.l >>> 1) (w.r >>> 1) lc rc = some 0 := by
    apply sumTags_new
    · rw [Nat.shiftRight_one]
      omega
    · rw [Nat.shiftRight_one]
      omega
  refine ⟨⟨w.l >>> 1, w.r >>> 1, lc, rc, w.k <<< 1⟩, ?_, Nat.shiftRight_one _, Nat.shiftRight_one _⟩
  simp only [sumRound, hlc, hrc, htags, Option.bind_eq_bind, Option.bind_some, add_zero,
    Option.pure_def]

theorem sumWhile_new (fuel : Nat) (meets : Meets L R J) (hlt : L < R) (hR : R + 1 < N * 16)
    (hj : j ≤ J) (hfuel : J - j < fuel) (hl : w.l = (left L).node j) (hr : w.r = (right R).node j) :
    ∃ w', (new : CommutativeBitmap N).sumWhile fuel 0 w = some (0, w') ∧ w'.l ≤ L ∧ w'.r ≤ R := by
  have hlle : w.l ≤ L := hl ▸ Nat.div_le_self L (2 ^ j)
  have hrle : w.r ≤ R := hr ▸ Nat.div_le_self R (2 ^ j)
  induction fuel generalizing w j with
  | zero => omega
  | succ fuel ih =>
      rw [sumWhile, hl, hr]
      obtain rfl | hltJ := Nat.eq_or_lt_of_le hj
      · rw [if_neg (not_not.mpr meets.xor_eq_zero)]
        exact ⟨w, rfl, hlle, hrle⟩
      · obtain ⟨w', hround, hl', hr'⟩ := sumRound_new (N := N) (w := w) (by omega) (by omega)
        rw [if_pos (meets.apart j hltJ), hround, Option.bind_eq_bind, Option.bind_some]
        apply ih hltJ (by omega)
        · rw [hl', hl, Path.node_succ]
        · rw [hr', hr, Path.node_succ]
        · omega
        · omega

theorem sumTail_new (hl : w.l < N * 16) (hr : w.r < N * 16) (hfuel : w.l < 2 ^ fuel) :
    (new : CommutativeBitmap N).sumTail (fuel + 1) 0 w = some 0 := by
  induction fuel generalizing w with
  | zero =>
      rw [sumTail, if_neg]
      omega
  | succ fuel ih =>
      rw [sumTail]
      split
      · rw [sumTags_new hl hr, Option.bind_eq_bind, Option.bind_some, add_zero]
        rw [Nat.pow_succ] at hfuel
        apply ih
        · exact (Nat.shiftRight_le w.l 1).trans_lt hl
        · exact (Nat.shiftRight_le w.r 1).trans_lt hr
        · dsimp only
          rw [Nat.shiftRight_one]
          omega
      · rfl

theorem getSum_new (hsize : 25 * N ≤ ISIZE_MAX) (hN : 0 < N) (hlr : l ≤ r) (hr : r ≤ 8 * N) :
    (new : CommutativeBitmap N).getSum l r = some 0 := by
  rw [ISIZE_MAX] at hsize
  obtain ⟨J, hJ, meets⟩ := exists_meets (l := l + N - 1) (r := r + N) (m := 64)
    (by omega) (by omega)
  obtain ⟨w', hwhile, hl', hr'⟩ := sumWhile_new (N := N) 64
    (w := ⟨l + N - 1, r + N, 0, 0, 1⟩) meets (by omega) (by omega) (Nat.zero_le J) (by omega)
    (left (l + N - 1)).node_zero.symm (right (r + N)).node_zero.symm
  rw [getSum, hwhile, Option.bind_eq_bind, Option.bind_some]
  exact sumTail_new (by omega) (by omega) (by omega)

theorem additions_append (calls calls' : List Access) :
    additions (calls ++ calls') = additions calls ++ additions calls' := by
  induction calls with
  | nil => rfl
  | cons c calls ih =>
      cases c with
      | add l r => exact congrArg ((l, r) :: ·) ih
      | getSum l r => exact ih

/-- The additions alone. -/
def onlyAdds (adds : List (Nat × Nat)) : List Access := adds.map fun c => .add c.1 c.2

theorem additions_onlyAdds (adds : List (Nat × Nat)) : additions (onlyAdds adds) = adds := by
  induction adds with
  | nil => rfl
  | cons c adds ih => exact congrArg (c :: ·) ih

theorem covers_onlyAdds (adds : List (Nat × Nat)) (s : Finset Nat) :
    covers s (onlyAdds adds) = [] := by
  induction adds generalizing s with
  | nil => rfl
  | cons c adds ih => exact ih _

/-- The range of an addition is empty, and not at the end. -/
def Harmless (N : Nat) (c : Nat × Nat) : Prop := c.1 = c.2 ∧ c.1 < 8 * N

/-- Additions of empty ranges leave the bitmap as it is. -/
theorem run_harmless {adds : List (Nat × Nat)} (hsize : 25 * N ≤ ISIZE_MAX) (hN : 0 < N)
    (hall : ∀ c ∈ adds, Harmless N c) (calls : List Access) (self : CommutativeBitmap N) :
    self.run (onlyAdds adds ++ calls) = self.run calls := by
  induction adds with
  | nil => rfl
  | cons c adds ih =>
      obtain ⟨hempty, hlt⟩ := hall c List.mem_cons_self
      have hadd : self.add c.1 c.2 1 = some self := by
        rw [← hempty]
        exact add_empty self hsize hN hlt
      rw [onlyAdds, List.map_cons, List.cons_append, run, hadd]
      exact ih fun d hd => hall d (List.mem_cons_of_mem c hd)

/-- In a run whose additions are harmless every query is answered by zero. -/
theorem run_new {calls : List Access} (hsize : 25 * N ≤ ISIZE_MAX) (hN : 0 < N)
    (hin : ∀ c ∈ calls, c.In N) (hall : ∀ c ∈ additions calls, Harmless N c) :
    ∃ answers, (new : CommutativeBitmap N).run calls = some (new, answers) ∧
      answers.map BitVec.toNat = covers ∅ calls := by
  induction calls with
  | nil => exact ⟨[], rfl, rfl⟩
  | cons c calls ih =>
      have hin' : ∀ d ∈ calls, d.In N := fun d hd => hin d (List.mem_cons_of_mem c hd)
      have hc := hin c List.mem_cons_self
      cases c with
      | add l r =>
          obtain ⟨hempty, hlt⟩ := hall (l, r) List.mem_cons_self
          obtain rfl : l = r := hempty
          obtain ⟨answers, hrun, hans⟩ := ih hin' fun d hd => hall d (List.mem_cons_of_mem _ hd)
          refine ⟨answers, ?_, ?_⟩
          · rw [run, add_empty _ hsize hN hlt]
            exact hrun
          · rw [covers, Finset.Ico_self, Finset.union_empty]
            exact hans
      | getSum l r =>
          obtain ⟨hlr, hr⟩ := hc
          obtain ⟨answers, hrun, hans⟩ := ih hin' hall
          refine ⟨0 :: answers, ?_, ?_⟩
          · rw [run, getSum_new hsize hN hlr hr, Option.bind_eq_bind, Option.bind_some, hrun]
            rfl
          · rw [covers, Finset.empty_inter, Finset.card_empty, List.map_cons, hans]
            rfl

theorem covers_harmless {adds : List (Nat × Nat)} (hall : ∀ c ∈ adds, Harmless N c)
    (calls : List Access) (s : Finset Nat) :
    covers s (onlyAdds adds ++ calls) = covers s calls := by
  induction adds with
  | nil => rfl
  | cons c adds ih =>
      obtain ⟨hempty, -⟩ := hall c List.mem_cons_self
      rw [onlyAdds, List.map_cons, List.cons_append, covers, hempty, Finset.Ico_self,
        Finset.union_empty]
      exact ih fun d hd => hall d (List.mem_cons_of_mem c hd)

theorem in_onlyAdds {adds : List (Nat × Nat)} (hin : ∀ c ∈ adds, c.1 ≤ c.2 ∧ c.2 ≤ 8 * N) :
    ∀ c ∈ onlyAdds adds, c.In N := by
  intro c hc
  obtain ⟨d, hd, rfl⟩ := List.mem_map.mp hc
  exact hin d hd

theorem card_inter_single (s : Finset Nat) (p : Nat) : (s ∩ Finset.Ico p (p + 1)).card ≤ 1 := by
  calc (s ∩ Finset.Ico p (p + 1)).card ≤ (Finset.Ico p (p + 1)).card :=
        Finset.card_le_card Finset.inter_subset_right
    _ = 1 := by rw [Nat.card_Ico, Nat.add_sub_cancel_left]

/-- Behind harmless additions, an addition and the queries after it are right. -/
theorem right_after {c : Nat × Nat} {adds adds' : List (Nat × Nat)} (queries : List Access)
    (hsize : 25 * N ≤ ISIZE_MAX) (hN : 0 < N)
    (hin : ∀ d ∈ adds ++ c :: adds', d.1 ≤ d.2 ∧ d.2 ≤ 8 * N) (hall : ∀ d ∈ adds, Harmless N d)
    (hright : Right N (adds ++ c :: adds')) (hadds : additions queries = [])
    (hqueries : ∀ q ∈ queries, q.In N)
    (hsmall : ∀ n ∈ covers (Finset.Ico c.1 c.2) (queries ++ onlyAdds adds'), n < 256) :
    ∃ bitmap res answers, (new : CommutativeBitmap N).add c.1 c.2 1 = some bitmap ∧
      bitmap.run (queries ++ onlyAdds adds') = some (res, answers) ∧
      answers.map BitVec.toNat =
        covers (Finset.Ico c.1 c.2) (queries ++ onlyAdds adds') := by
  have hcalls : additions (onlyAdds adds ++ .add c.1 c.2 :: (queries ++ onlyAdds adds')) =
      adds ++ c :: adds' := by
    rw [additions_append, additions_onlyAdds, additions, additions_append, hadds,
      additions_onlyAdds, List.nil_append]
  have hcovers : covers ∅ (onlyAdds adds ++ .add c.1 c.2 :: (queries ++ onlyAdds adds')) =
      covers (Finset.Ico c.1 c.2) (queries ++ onlyAdds adds') := by
    rw [covers_harmless hall, covers, Finset.empty_union]
  obtain ⟨res, answers, hrun, hans⟩ := hright _ hcalls (by
    intro d hd
    obtain hd | hd := List.mem_append.mp hd
    · exact in_onlyAdds (fun d hd => hin d (List.mem_append_left _ hd)) d hd
    · obtain rfl | hd := List.mem_cons.mp hd
      · exact hin c (List.mem_append_right _ List.mem_cons_self)
      · obtain hd | hd := List.mem_append.mp hd
        · exact hqueries d hd
        · exact in_onlyAdds (fun d hd =>
            hin d (List.mem_append_right _ (List.mem_cons_of_mem c hd))) d hd)
    (hcovers ▸ hsmall)
  rw [run_harmless hsize hN hall] at hrun
  obtain ⟨bitmap, hadd, hrun⟩ := Option.bind_eq_some_iff.mp hrun
  exact ⟨bitmap, res, answers, hadd, hrun, hans.trans hcovers⟩

/-- With an addition that is not harmless some query goes wrong. -/
theorem harmless_of_right {c : Nat × Nat} {adds adds' : List (Nat × Nat)}
    (hsize : 25 * 2 ^ k ≤ ISIZE_MAX)
    (hin : ∀ d ∈ adds ++ c :: adds', d.1 ≤ d.2 ∧ d.2 ≤ 8 * 2 ^ k)
    (hall : ∀ d ∈ adds, Harmless (2 ^ k) d) (hright : Right (2 ^ k) (adds ++ c :: adds')) :
    Harmless (2 ^ k) c := by
  have hpow := Nat.two_pow_pos k
  obtain ⟨hlr, hr⟩ := hin c (List.mem_append_right _ List.mem_cons_self)
  obtain ⟨bitmap, -, -, hadd, -, -⟩ :=
    right_after [] hsize hpow hin hall hright rfl nofun (by
      rw [List.nil_append, covers_onlyAdds]
      nofun)
  obtain heq | hlt := Nat.eq_or_lt_of_le hlr
  · refine ⟨heq, ?_⟩
    by_contra hend
    have hc : c = (8 * 2 ^ k, 8 * 2 ^ k) := Prod.ext (by omega) (by omega)
    rw [hc, add_end _ hpow] at hadd
    exact absurd hadd nofun
  · exfalso
    obtain ⟨h, s, hh, taken⟩ := exists_taken hlt hr hadd
    obtain ⟨p, hp, hwrong⟩ := taken.exists_wrong hh hpow
    have hcard := card_inter_single (Finset.Ico c.1 c.2) p
    have hcovers : covers (Finset.Ico c.1 c.2) (.getSum p (p + 1) :: onlyAdds adds') =
        [(Finset.Ico c.1 c.2 ∩ Finset.Ico p (p + 1)).card] := by
      rw [covers, covers_onlyAdds]
    obtain ⟨bitmap', res, answers, hadd', hrun, hans⟩ :=
      right_after [.getSum p (p + 1)] hsize hpow hin hall hright rfl
        (by
          intro q hq
          obtain rfl := List.mem_singleton.mp hq
          exact ⟨Nat.le_succ p, hp⟩)
        (by
          rw [List.singleton_append, hcovers]
          intro n hn
          obtain rfl := List.mem_singleton.mp hn
          omega)
    obtain rfl : bitmap = bitmap' := Option.some.inj (hadd.symm.trans hadd')
    obtain ⟨v, hsum, hrun⟩ := Option.bind_eq_some_iff.mp hrun
    obtain ⟨⟨res', answers'⟩, -, hrun⟩ := Option.bind_eq_some_iff.mp hrun
    obtain ⟨-, rfl⟩ := Prod.mk.inj (Option.some.inj hrun)
    rw [List.singleton_append, hcovers, List.map_cons] at hans
    have := hwrong v hsum
    have := (List.cons.inj hans).1
    omega

/-- One addition after the other is harmless. -/
theorem harmless_all (adds : List (Nat × Nat)) {adds' : List (Nat × Nat)}
    (hsize : 25 * 2 ^ k ≤ ISIZE_MAX)
    (hin : ∀ d ∈ adds ++ adds', d.1 ≤ d.2 ∧ d.2 ≤ 8 * 2 ^ k)
    (hright : Right (2 ^ k) (adds ++ adds')) (hall : ∀ d ∈ adds, Harmless (2 ^ k) d) :
    ∀ d ∈ adds', Harmless (2 ^ k) d := by
  induction adds' generalizing adds with
  | nil => exact fun d hd => absurd hd List.not_mem_nil
  | cons c adds' ih =>
      have hc := harmless_of_right hsize hin hall hright
      have hsnoc : ∀ d ∈ adds ++ [c], Harmless (2 ^ k) d := by
        intro d hd
        obtain hd | hd := List.mem_append.mp hd
        · exact hall d hd
        · obtain rfl := List.mem_singleton.mp hd
          exact hc
      rw [List.append_cons] at hin hright
      intro d hd
      obtain rfl | hd := List.mem_cons.mp hd
      · exact hc
      · exact ih _ hin hright hsnoc d hd

/-- Whatever is asked for in between, the calls are right if and only if every range that is
added is empty and begins before the end. -/
theorem right_iff {adds : List (Nat × Nat)} (hsize : 25 * 2 ^ k ≤ ISIZE_MAX)
    (hin : ∀ c ∈ adds, c.1 ≤ c.2 ∧ c.2 ≤ 8 * 2 ^ k) :
    Right (2 ^ k) adds ↔ ∀ c ∈ adds, c.1 = c.2 ∧ c.1 < 8 * 2 ^ k := by
  constructor
  · intro hright
    exact harmless_all [] hsize hin hright fun d hd => absurd hd List.not_mem_nil
  · intro hall calls hcalls hcin _
    obtain rfl := hcalls
    obtain ⟨answers, hrun, hans⟩ := run_new hsize (Nat.two_pow_pos k) hcin hall
    exact ⟨new, answers, hrun, hans⟩

/-- Two empty ranges. -/
theorem right_iff_two : Right (2 ^ 1) [(3, 3), (7, 7)] ↔
    ∀ c ∈ [((3 : Nat), (3 : Nat)), (7, 7)], c.1 = c.2 ∧ c.1 < 8 * 2 ^ 1 := by
  apply right_iff
  · decide
  · decide

/-- The first position is covered, and a byte is added to a leaf. -/
theorem first_add_panics : ¬Right 1 [(0, 1)] ∧
    (new : CommutativeBitmap 1).run [.add 0 1] = none := by
  have hpanics : (new : CommutativeBitmap 1).run [.add 0 1] = none := by decide
  refine ⟨?_, hpanics⟩
  intro hright
  obtain ⟨bitmap, answers, hrun, -⟩ := hright [.add 0 1] rfl
    (by
      intro c hc
      obtain rfl := List.mem_singleton.mp hc
      exact ⟨by decide, by decide⟩)
    (by decide)
  rw [hpanics] at hrun
  exact absurd hrun nofun

end CommutativeBitmap

end UniAlloc.BitmapAlloc
