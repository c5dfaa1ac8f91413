import UniAlloc.Slab.Basic

/-!
# The geometry of a page

`SCAllocator::new` divides a run of bytes into chunks of one stride, which it rounds
between the size class and the space a chunk can have. The page size is a parameter
here. An operation that would panic is `none`.
-/

namespace UniAlloc.Slab

def checkedDiv (x y : Nat) : Option Nat := if y = 0 then none else some (x / y)

def checkedRem (x y : Nat) : Option Nat := if y = 0 then none else some (x % y)

def checkedMul (x y : Nat) : Option Nat := if x * y < 2 ^ 64 then some (x * y) else none

def checkedDiff (x y : Nat) : Option Nat := if y ≤ x then some (x - y) else none

theorem checkedDiv_of_pos {x y : Nat} (h : 0 < y) : checkedDiv x y = some (x / y) :=
  if_neg h.ne'

theorem checkedRem_of_pos {x y : Nat} (h : 0 < y) : checkedRem x y = some (x % y) :=
  if_neg h.ne'

theorem checkedMul_of_lt {x y : Nat} (h : x * y < 2 ^ 64) : checkedMul x y = some (x * y) :=
  if_pos h

theorem checkedDiff_of_le {x y : Nat} (h : y ≤ x) : checkedDiff x y = some (x - y) :=
  if_pos h

theorem asI32_of_lt {x : Nat} (hx : x < 2 ^ 31) : asI32 x = x := by
  have hx' : x < 2147483648 := hx
  refine Int.bmod_eq_of_le ?_ ?_
  · norm_num
  · norm_num
    omega

theorem asUsize_asI32 {x : Nat} (hx : x < 2 ^ 31) : asUsize (asI32 x) = x := by
  have hx' : x < 2147483648 := hx
  rw [asI32_of_lt hx, asUsize]
  norm_num
  omega

namespace SCAllocator

/-- `min_align`: half the power of two next to the slack of a chunk. -/
def minAlign (diffAligh : Nat) : Nat :=
  if nextPowerOfTwo diffAligh / 2 = 0 then 1 else nextPowerOfTwo diffAligh / 2

/-- `rem`: the size class rounded up to a multiple of `min_align`. -/
def roundUp (sizeClass minAlign : Nat) : Option Nat := do
  let left ← checkedRem sizeClass minAlign
  if left = 0 then some sizeClass
  else do
    let steps ← checkedDiv sizeClass minAlign
    checkedMul (steps + 1) minAlign

/-- `SCAllocator::new` for pages of `pageSize` bytes. -/
def newIn (pageSize sizeClass numOsPages : Nat) : Option SCAllocator :=
  if sizeClass = 0 then some ⟨0, 0, 0, 0, 0, 0, 0, 0⟩
  else do
    let run ← checkedMul pageSize numOsPages
    let pgCount ← checkedDiv run sizeClass
    let perfectAlign ← checkedDiv run pgCount
    let diffAligh ← checkedDiff perfectAlign sizeClass
    let rem ← roundUp sizeClass (minAlign diffAligh)
    let align := if isPowerOfTwo perfectAlign then perfectAlign else rem
    some ⟨0, 0, 0, 0, 0, numOsPages, asI32 pgCount, asI32 align⟩

/-- The stride of the chunks in a run of bytes. -/
def strideIn (run sizeClass : Nat) : Nat :=
  let perfectAlign := run / (run / sizeClass)
  let minAlign := minAlign (perfectAlign - sizeClass)
  let rem :=
    if sizeClass % minAlign = 0 then sizeClass else (sizeClass / minAlign + 1) * minAlign
  if isPowerOfTwo perfectAlign then perfectAlign else rem

variable {run sizeClass : Nat}

theorem minAlign_pos (diff : Nat) : 0 < minAlign diff := by
  rw [minAlign]
  split <;> omega

/-- Rounding to it stays within the slack. -/
theorem minAlign_eq_one_or_le (diff : Nat) : minAlign diff = 1 ∨ minAlign diff ≤ diff := by
  rw [minAlign]
  split
  · exact .inl rfl
  · next hne =>
      refine .inr ?_
      have hbig : ¬diff ≤ 1 := fun hle => hne (by simp [nextPowerOfTwo, hle])
      have := Nat.log2_self_le (show diff - 1 ≠ 0 by omega)
      rw [nextPowerOfTwo, if_neg hbig, Nat.pow_succ, Nat.mul_div_cancel _ (by decide)]
      omega

/-- Rounding up to a multiple of `m` adds at most `m`. -/
theorem roundUp_bounds (x : Nat) {m : Nat} (hm : 0 < m) :
    x ≤ (x / m + 1) * m ∧ (x / m + 1) * m ≤ x + m := by
  have hdiv := Nat.div_mul_le_self x m
  have hmod := Nat.lt_div_mul_add (a := x) hm
  rw [Nat.succ_mul]
  omega

theorem roundUp_eq {m : Nat} (hm : 0 < m) (hsum : sizeClass + m < 2 ^ 64) :
    roundUp sizeClass m =
      some (if sizeClass % m = 0 then sizeClass else (sizeClass / m + 1) * m) := by
  have hbound := (roundUp_bounds sizeClass hm).2.trans_lt hsum
  rw [roundUp, checkedRem_of_pos hm, Option.bind_eq_bind, Option.bind_some]
  split
  · rfl
  · rw [checkedDiv_of_pos hm]
    exact checkedMul_of_lt hbound

/-- The size class fits into the even share of the run. -/
theorem le_share (hsize : 0 < sizeClass) (hle : sizeClass ≤ run) :
    sizeClass ≤ run / (run / sizeClass) := by
  rw [Nat.le_div_iff_mul_le (Nat.div_pos hle hsize), Nat.mul_comm]
  exact Nat.div_mul_le_self _ _

/-- The stride lies between the size class and the even share of the run. -/
theorem strideIn_spec (hsize : 0 < sizeClass) (hle : sizeClass ≤ run) :
    sizeClass ≤ strideIn run sizeClass ∧ strideIn run sizeClass ≤ run / (run / sizeClass) := by
  have hshare := le_share hsize hle
  simp only [strideIn]
  generalize run / (run / sizeClass) = perfectAlign at hshare
  split
  · exact ⟨hshare, le_rfl⟩
  · obtain hone | hslack := minAlign_eq_one_or_le (perfectAlign - sizeClass)
    · rw [hone, Nat.mod_one, if_pos rfl]
      exact ⟨le_rfl, hshare⟩
    · split
      · exact ⟨le_rfl, hshare⟩
      · obtain ⟨h₁, h₂⟩ := roundUp_bounds sizeClass (minAlign_pos (perfectAlign - sizeClass))
        exact ⟨h₁, by omega⟩

/-- The chunks fit into the run, and one more would not. -/
theorem chunks_fit (hsize : 0 < sizeClass) (hle : sizeClass ≤ run) :
    run / sizeClass * strideIn run sizeClass ≤ run ∧
      run < (run / sizeClass + 1) * strideIn run sizeClass := by
  obtain ⟨hlow, hhigh⟩ := strideIn_spec hsize hle
  constructor
  · rw [Nat.mul_comm]
    exact (Nat.mul_le_mul_right _ hhigh).trans (Nat.div_mul_le_self _ _)
  · exact (Nat.lt_mul_of_div_lt (Nat.lt_succ_self _) hsize).trans_le (Nat.mul_le_mul_left _ hlow)

/-- No operation of `new` panics. -/
theorem newIn_eq {pageSize numOsPages : Nat} (hsize : 0 < sizeClass)
    (hle : sizeClass ≤ pageSize * numOsPages) (hrun : pageSize * numOsPages < 2 ^ 31) :
    newIn pageSize sizeClass numOsPages = some ⟨0, 0, 0, 0, 0, numOsPages,
      asI32 (pageSize * numOsPages / sizeClass),
      asI32 (strideIn (pageSize * numOsPages) sizeClass)⟩ := by
  have hrun : pageSize * numOsPages < 2147483648 := hrun
  have hcount := Nat.div_pos hle hsize
  have hshare := le_share hsize hle
  have hdiff := minAlign_eq_one_or_le
    (pageSize * numOsPages / (pageSize * numOsPages / sizeClass) - sizeClass)
  have hle' : pageSize * numOsPages / (pageSize * numOsPages / sizeClass) ≤
    pageSize * numOsPages := Nat.div_le_self _ _
  rw [newIn, if_neg hsize.ne', checkedMul_of_lt (hrun.trans (by decide))]
  simp only [Option.bind_eq_bind, Option.bind_some, checkedDiv_of_pos hsize,
    checkedDiv_of_pos hcount, checkedDiff_of_le hshare]
  rw [roundUp_eq (minAlign_pos _) (by omega)]
  rfl

/-- `new` is the case of pages of `4096` bytes. -/
theorem newIn_page {numOsPages : Nat} (hsize : 0 < sizeClass)
    (hle : sizeClass ≤ PAGE_SIZE * numOsPages) (hrun : PAGE_SIZE * numOsPages < 2 ^ 31) :
    newIn PAGE_SIZE sizeClass numOsPages = some (new sizeClass numOsPages) := by
  rw [newIn_eq hsize hle hrun, new, if_neg hsize.ne']
  rfl

/-- `new` divides every run that holds a chunk of the class: the casts lose nothing, and
the chunks are large enough, lie in the run, apart from each other, and leave less than
one stride. -/
theorem new_divides {pageSize numOsPages : Nat} (hsize : 0 < sizeClass)
    (hle : sizeClass ≤ pageSize * numOsPages) (hrun : pageSize * numOsPages < 2 ^ 31) :
    ∃ (self : SCAllocator) (pgCount pgAlign : Nat),
      newIn pageSize sizeClass numOsPages = some self ∧ self.pgNum = numOsPages ∧
      self.pgCount = pgCount ∧ self.pgAlign = pgAlign ∧
      1 ≤ pgCount ∧ sizeClass ≤ pgAlign ∧ pgCount * pgAlign ≤ pageSize * numOsPages ∧
      pageSize * numOsPages < (pgCount + 1) * pgAlign ∧
      ∀ data, (∀ i < pgCount,
          data + i * pgAlign + sizeClass ≤ data + pageSize * numOsPages) ∧
        ∀ i j, i < j → j < pgCount → data + i * pgAlign + sizeClass ≤ data + j * pgAlign := by
  have hcount := Nat.div_pos hle hsize
  obtain ⟨hfits, hover⟩ := chunks_fit hsize hle
  obtain ⟨hlow, hshare⟩ := strideIn_spec hsize hle
  have hcount' : pageSize * numOsPages / sizeClass ≤ pageSize * numOsPages := Nat.div_le_self _ _
  have hstride := hshare.trans (Nat.div_le_self _ _)
  have castCount := asI32_of_lt (lt_of_le_of_lt hcount' hrun)
  have castStride := asI32_of_lt (lt_of_le_of_lt hstride hrun)
  refine ⟨_, _, _, newIn_eq hsize hle hrun, rfl, ?_, ?_, hcount, hlow, hfits, hover,
    fun data => ?_⟩
  · simpa only using castCount
  · simpa only using castStride
  generalize pageSize * numOsPages / sizeClass = pgCount at hfits
  generalize strideIn (pageSize * numOsPages) sizeClass = pgAlign at hlow hfits
  have next : ∀ {i j}, i < j → i * pgAlign + sizeClass ≤ j * pgAlign := fun {i j} hij => calc
    i * pgAlign + sizeClass ≤ i * pgAlign + pgAlign := Nat.add_le_add_left hlow _
    _ = (i + 1) * pgAlign := (Nat.succ_mul i pgAlign).symm
    _ ≤ j * pgAlign := Nat.mul_le_mul_right _ hij
  refine ⟨fun i hi => ?_, fun i j hij _ => ?_⟩
  · rw [Nat.add_assoc]
    exact Nat.add_le_add_left ((next hi).trans hfits) data
  · rw [Nat.add_assoc]
    exact Nat.add_le_add_left (next hij) data

/-- Chunks of `48` bytes in one page of `16384` bytes. -/
theorem new_divides_48 : ∃ (self : SCAllocator) (pgCount pgAlign : Nat),
    newIn 16384 48 1 = some self ∧ self.pgNum = 1 ∧
    self.pgCount = pgCount ∧ self.pgAlign = pgAlign ∧
    1 ≤ pgCount ∧ 48 ≤ pgAlign ∧ pgCount * pgAlign ≤ 16384 * 1 ∧
    16384 * 1 < (pgCount + 1) * pgAlign ∧
    ∀ data, (∀ i < pgCount, data + i * pgAlign + 48 ≤ data + 16384 * 1) ∧
      ∀ i j, i < j → j < pgCount → data + i * pgAlign + 48 ≤ data + j * pgAlign :=
  new_divides (by norm_num) (by norm_num) (by norm_num)

end SCAllocator

end UniAlloc.Slab
