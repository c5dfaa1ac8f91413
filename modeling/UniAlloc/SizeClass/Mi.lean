import UniAlloc.SizeClass.Basic
import UniAlloc.SizeClass.Generate
import UniAlloc.Memory

/-!
# Size classes without a table of indices

The third table of sizes has four classes for every power of two, so that the class
of a request is computed from the highest bits of its number of words. No build uses
it. Overflow is not checked: bytes and words wrap around, and a shift takes the last six
bits of its amount. An access out of bounds is `none`.
-/

namespace UniAlloc

namespace MiSizeClass

def SZOFUSIZE : Nat := 8

def TOTAL_SIZE_CLASS : Nat := 46

def MAX_SIZE : Nat := 40960

def SIZE_ARRAY : List Nat :=
  [8, 8, 16, 24, 32, 40, 48, 56, 64, 80, 96, 112, 128, 160, 192, 224, 256, 320, 384, 448, 512,
    640, 768, 896, 1024, 1280, 1536, 1792, 2048, 2560, 3072, 3584, 4096, 5120, 6144, 7168, 8192,
    10240, 12288, 14336, 16384, 20480, 24576, 28672, 32768, 40960]

/-- The last byte of `63 - leading_zeros`, which is `-1` for zero. -/
def bsr (x : Nat) : Nat := if x = 0 then 2 ^ 8 - 1 else x.log2

def getNumOfUsize (req : Nat) : Nat :=
  if req > 2 ^ 64 - 1 - SZOFUSIZE then req / SZOFUSIZE
  else if req % SZOFUSIZE = 0 then req / SZOFUSIZE
  else (req + SZOFUSIZE - 1 &&& (2 ^ 64 - SZOFUSIZE)) / SZOFUSIZE

/-- The `idx` of `get_idx_by_size` and of `get_size_class`. -/
def idxOf (n : Nat) : Nat :=
  let b := bsr n
  let quarter := (n >>> ((b + 2 ^ 8 - 2) % 2 ^ 8 % 2 ^ 6)) &&& 0x03
  (((b <<< 2) % 2 ^ 8 + quarter) % 2 ^ 8 + 2 ^ 8 - 3) % 2 ^ 8

def getIdxBySize (req : Nat) : Nat := idxOf ((getNumOfUsize req + 2 ^ 64 - 1) % 2 ^ 64)

def getSizeClass (req : Nat) : SizeClass :=
  if req > MAX_SIZE then .large req
  else
    let n := getNumOfUsize req
    if n ≤ 8 then .base n else .base (idxOf (n - 1))

def getRoundedSizeByIdx (idx : Nat) : Option Nat := SIZE_ARRAY[idx]?

/-- The entry of the table that `generate_num_pages` writes for the same list of sizes. -/
def getNumPagesByIdx (idx : Nat) : Option Usize := do
  let cl ← SIZE_ARRAY[idx]?
  NumPages.numPages (BitVec.ofNat 64 cl)

theorem lt_of_getRoundedSizeByIdx {idx size : Nat} (h : getRoundedSizeByIdx idx = some size) :
    idx < TOTAL_SIZE_CLASS := (List.getElem?_eq_some_iff.mp h).1

theorem sizes_bounds : ∀ size ∈ SIZE_ARRAY, 1 ≤ size ∧ size ≤ MAX_SIZE := by
  decide

/-- The run of a class is the shortest one that its chunks fill. -/
theorem getNumPagesByIdx_spec {idx size : Nat} (h : getRoundedSizeByIdx idx = some size) :
    ∃ n, getNumPagesByIdx idx = some n ∧
      IsLeast {n | 1 ≤ n ∧ size ∣ n * 4096} n.toNat := by
  obtain ⟨hpos, hle⟩ := sizes_bounds size (List.mem_of_getElem? h)
  have hmax : size ≤ 40960 := hle
  have hval : (BitVec.ofNat 64 size).toNat = size := by
    rw [BitVec.toNat_ofNat]
    exact Nat.mod_eq_of_lt (by omega)
  obtain ⟨n, hn, hleast⟩ :=
    @NumPages.numPages_spec (BitVec.ofNat 64 size) (by omega) (by omega)
  rw [hval] at hleast
  refine ⟨n, ?_, hleast⟩
  rw [getNumPagesByIdx, show SIZE_ARRAY[idx]? = some size from h]
  exact hn

theorem sizes_sorted : SIZE_ARRAY.Pairwise (· ≤ ·) := by
  decide

theorem getRoundedSizeByIdx_mono {i j s t : Nat} (hij : i ≤ j)
    (hi : getRoundedSizeByIdx i = some s) (hj : getRoundedSizeByIdx j = some t) : s ≤ t := by
  obtain rfl | hlt := Nat.eq_or_lt_of_le hij
  · exact (Option.some.inj (hi.symm.trans hj)).le
  · obtain ⟨hi', rfl⟩ := List.getElem?_eq_some_iff.mp hi
    obtain ⟨hj', rfl⟩ := List.getElem?_eq_some_iff.mp hj
    exact List.pairwise_iff_getElem.mp sizes_sorted i j hi' hj' hlt

/-- The four classes above `32 * 2 ^ k` bytes, and the class before each. -/
theorem quarter_sizes : ∀ k < 11, ∀ r < 4, 4 * k + r ≤ 40 →
    getRoundedSizeByIdx (4 * k + r + 5) = some (8 * ((r + 5) * 2 ^ k)) ∧
      getRoundedSizeByIdx (4 * k + r + 4) = some (8 * ((r + 4) * 2 ^ k)) := by
  decide

theorem word_sizes : ∀ m < 8, getRoundedSizeByIdx (m + 1) = some (8 * (m + 1)) := by
  decide

/-- Class `idx` is the least one for the requests of more than `m` words and at most `m + 1`,
and it wastes less than a word or less than a quarter of them. -/
structure Serves (m idx : Nat) : Prop where
  pos : 0 < idx
  size : ∃ s, getRoundedSizeByIdx idx = some s ∧ 8 * (m + 1) ≤ s ∧
    (s = 8 * (m + 1) ∨ s ≤ 10 * m)
  below : 1 < idx → ∃ p, getRoundedSizeByIdx (idx - 1) = some p ∧ p ≤ 8 * m

theorem serves_word {m : Nat} (h : m < 8) : Serves m (m + 1) where
  pos := Nat.succ_pos m
  size := ⟨8 * (m + 1), word_sizes m h, le_rfl, .inl rfl⟩
  below hm := by
    have hprev := word_sizes (m - 1) (by omega)
    rw [Nat.sub_add_cancel (by omega)] at hprev
    exact ⟨8 * m, hprev, le_rfl⟩

/-- The highest bit of `m` is bit `k + 2`, and `m` lies in quarter `r` above it. -/
theorem quarter_spec {m : Nat} (h : 4 ≤ m) :
    ∃ k r, m.log2 = k + 2 ∧ m / 2 ^ k = r + 4 ∧ r < 4 ∧
      (r + 4) * 2 ^ k ≤ m ∧ m < (r + 5) * 2 ^ k := by
  have hne : m ≠ 0 := by omega
  obtain ⟨k, hk⟩ : ∃ k, m.log2 = k + 2 :=
    Nat.exists_eq_add_of_le' ((Nat.le_log2 hne).mpr h)
  have hpos : 0 < 2 ^ k := Nat.two_pow_pos k
  have hlow : 2 ^ m.log2 ≤ m := Nat.log2_self_le hne
  have hhigh : m < 2 ^ (m.log2 + 1) := Nat.lt_log2_self
  rw [hk, Nat.pow_add, Nat.mul_comm] at hlow
  rw [hk, Nat.add_assoc, Nat.pow_add, Nat.mul_comm] at hhigh
  have hquarter : 4 ≤ m / 2 ^ k := (Nat.le_div_iff_mul_le hpos).mpr hlow
  have hlt : m / 2 ^ k < 8 := (Nat.div_lt_iff_lt_mul hpos).mpr hhigh
  obtain ⟨r, hr⟩ : ∃ r, m / 2 ^ k = r + 4 := Nat.exists_eq_add_of_le' hquarter
  refine ⟨k, r, hk, hr, by omega, ?_, ?_⟩
  · rw [← hr]
    exact Nat.div_mul_le_self m _
  · rw [← Nat.div_lt_iff_lt_mul hpos, hr]
    exact Nat.lt_succ_self _

theorem idxOf_eq {m k r : Nat} (hk : m.log2 = k + 2) (hr : m / 2 ^ k = r + 4) (hlt : r < 4)
    (hmax : k < 11) : idxOf m = 4 * k + r + 5 := by
  have hne : m ≠ 0 := by
    rintro rfl
    rw [Nat.zero_div] at hr
    omega
  have hbsr : bsr m = k + 2 := (if_neg hne).trans hk
  have hshift : (k + 2) <<< 2 = 4 * k + 8 := by
    rw [Nat.shiftLeft_eq]
    omega
  have hmask : m >>> k &&& 0x03 = r := by
    have hmod : m >>> k &&& 0x03 = m >>> k % 4 := Nat.and_two_pow_sub_one_eq_mod _ 2
    rw [hmod, Nat.shiftRight_eq_div_pow, hr]
    omega
  have hamount : (k + 2 + 2 ^ 8 - 2) % 2 ^ 8 % 2 ^ 6 = k := by omega
  simp only [idxOf, hbsr, hshift, hamount, hmask]
  omega

/-- The computed class, for the numbers of words of small requests. -/
theorem idxOf_serves {m : Nat} (h : 4 ≤ m) (hmax : m < 5120) :
    Serves m (idxOf m) ∧ (m < 8 → idxOf m = m + 1) := by
  obtain ⟨k, r, hk, hr, hlt, hle, hgt⟩ := quarter_spec h
  have hbit : m.log2 < 13 := (Nat.log2_lt (by omega)).mpr (by omega)
  rw [idxOf_eq hk hr hlt (by omega)]
  constructor
  · -- only the first of the four classes of the last power of two is in the table
    have hlast : 4 * k + r ≤ 40 := by
      obtain rfl | hne := Decidable.eq_or_ne k 10 <;> omega
    obtain ⟨hsize, hprev⟩ := quarter_sizes k (by omega) r hlt hlast
    have hfour : 4 * 2 ^ k ≤ (r + 4) * 2 ^ k := Nat.mul_le_mul_right _ (Nat.le_add_left 4 r)
    have hnext : (r + 5) * 2 ^ k = (r + 4) * 2 ^ k + 2 ^ k := Nat.succ_mul (r + 4) _
    exact
      { pos := by omega
        size := ⟨_, hsize, by omega, .inr (by omega)⟩
        below := fun _ => ⟨_, hprev, by omega⟩ }
  · intro hword
    have hzero : m.log2 < 3 := (Nat.log2_lt (by omega)).mpr (by omega)
    obtain rfl : k = 0 := by omega
    rw [Nat.pow_zero, Nat.div_one] at hr
    omega

theorem getNumOfUsize_eq {req : Nat} (h : req < 2 ^ 63) : getNumOfUsize req = (req + 7) / 8 := by
  have hround : req + SZOFUSIZE - 1 &&& (2 ^ 64 - SZOFUSIZE) = (req + 7) / 8 * 8 :=
    and_clear_low (n := req + 7) (k := 3) (by omega) (by omega)
  have hbig : ¬req > 2 ^ 64 - 1 - SZOFUSIZE := by
    simp only [SZOFUSIZE]
    omega
  rw [getNumOfUsize, if_neg hbig]
  by_cases hword : req % SZOFUSIZE = 0
  · rw [if_pos hword]
    simp only [SZOFUSIZE] at hword ⊢
    omega
  · rw [if_neg hword, hround]
    exact Nat.mul_div_cancel _ (by decide)

/-- The class of the words is the class of the request. -/
theorem Serves.isLeast {req idx : Nat} (serves : Serves ((req + 7) / 8 - 1) idx) (hpos : 0 < req) :
    ∃ size, getRoundedSizeByIdx idx = some size ∧
      IsLeast {i | 0 < i ∧ ∃ s, getRoundedSizeByIdx i = some s ∧ req ≤ s} idx ∧
      (size < req + SZOFUSIZE ∨ 4 * (size - req) < req) := by
  obtain ⟨size, hsize, hle, hwaste⟩ := serves.size
  refine ⟨size, hsize, ⟨⟨serves.pos, size, hsize, by omega⟩, ?_⟩, ?_⟩
  · rintro i ⟨hi, s, hs, hheld⟩
    by_contra hlow
    obtain ⟨p, hp, hprev⟩ := serves.below (by omega)
    -- the class before `idx` holds at least as much as class `i`
    have hmono : s ≤ p := getRoundedSizeByIdx_mono (by omega) hs hp
    omega
  · simp only [SZOFUSIZE]
    omega

theorem getIdxBySize_eq {req : Nat} (hpos : 0 < req) (h : req < 2 ^ 63) :
    getIdxBySize req = idxOf ((req + 7) / 8 - 1) := by
  have hsub : ((req + 7) / 8 + 2 ^ 64 - 1) % 2 ^ 64 = (req + 7) / 8 - 1 := by omega
  rw [getIdxBySize, getNumOfUsize_eq h, hsub]

/-- Every small request gets the least class that holds it, and the computation from the bits
alone finds the same one for more than four words. -/
theorem getSizeClass_serves {req : Nat} (hpos : 0 < req) (h : req ≤ MAX_SIZE) :
    ∃ idx, getSizeClass req = .base idx ∧ Serves ((req + 7) / 8 - 1) idx ∧
      (32 < req → getIdxBySize req = idx) := by
  have hmax : req ≤ 40960 := h
  have hclass : getSizeClass req = if getNumOfUsize req ≤ 8 then .base (getNumOfUsize req)
      else .base (idxOf (getNumOfUsize req - 1)) := if_neg (Nat.not_lt.mpr h)
  rw [getNumOfUsize_eq (by omega)] at hclass
  rw [getIdxBySize_eq hpos (by omega)]
  have hsucc : (req + 7) / 8 - 1 + 1 = (req + 7) / 8 := by omega
  by_cases hwords : (req + 7) / 8 ≤ 8
  · have hserves := serves_word (m := (req + 7) / 8 - 1) (by omega)
    rw [hsucc] at hserves
    refine ⟨_, hclass.trans (if_pos hwords), hserves, fun hbig => ?_⟩
    rw [(idxOf_serves (m := (req + 7) / 8 - 1) (by omega) (by omega)).2 (by omega), hsucc]
  · exact ⟨_, hclass.trans (if_neg hwords), (idxOf_serves (by omega) (by omega)).1, fun _ => rfl⟩

/-- Of four words or fewer the quarter is not computed: the byte wraps around, to an index that
is out of bounds or to the class of one word. -/
theorem getIdxBySize_small {req : Nat} (hpos : 0 < req) (h : req ≤ 32) :
    getRoundedSizeByIdx (getIdxBySize req) = if req ≤ 16 then none else some 8 := by
  have hfew : ∀ m < 4, getRoundedSizeByIdx (idxOf m) = if m < 2 then none else some 8 := by
    decide
  rw [getIdxBySize_eq hpos (by omega), hfew _ (by omega)]
  exact if_congr (by omega) rfl rfl

/-- A request of at most `MAX_SIZE` bytes gets the least class that holds it. Less than a word
or less than a quarter of the request is wasted, and the runs of the class are filled by its
chunks. The bits alone give the same class for more than four words; for fewer they give an
index without a class, or a class that is too small. -/
theorem computed_class_least :
    getSizeClass 0 = .base 0 ∧
    (∀ req, MAX_SIZE < req → getSizeClass req = .large req) ∧
    ∀ req, 0 < req → req ≤ MAX_SIZE → ∃ idx size, getSizeClass req = .base idx ∧
      idx < TOTAL_SIZE_CLASS ∧ getRoundedSizeByIdx idx = some size ∧
      IsLeast {i | 0 < i ∧ ∃ s, getRoundedSizeByIdx i = some s ∧ req ≤ s} idx ∧
      (size < req + SZOFUSIZE ∨ 4 * (size - req) < req) ∧
      (∃ n, getNumPagesByIdx idx = some n ∧
        IsLeast {n | 1 ≤ n ∧ size ∣ n * 4096} n.toNat) ∧
      (32 < req → getIdxBySize req = idx) ∧
      (req ≤ 32 → getRoundedSizeByIdx (getIdxBySize req) = if req ≤ 16 then none else some 8) := by
  refine ⟨by decide, fun req hlarge => if_pos hlarge, fun req hpos hsmall => ?_⟩
  obtain ⟨idx, hclass, serves, hbits⟩ := getSizeClass_serves hpos hsmall
  obtain ⟨size, hsize, hleast, hwaste⟩ := serves.isLeast hpos
  exact ⟨idx, size, hclass, lt_of_getRoundedSizeByIdx hsize, hsize, hleast, hwaste,
    getNumPagesByIdx_spec hsize, hbits, getIdxBySize_small hpos⟩

/-- The largest request that is not a large one. -/
theorem computed_class_least_last : ∃ idx size, getSizeClass 40960 = .base idx ∧
    idx < TOTAL_SIZE_CLASS ∧ getRoundedSizeByIdx idx = some size ∧
    IsLeast {i | 0 < i ∧ ∃ s, getRoundedSizeByIdx i = some s ∧ 40960 ≤ s} idx ∧
    (size < 40960 + SZOFUSIZE ∨ 4 * (size - 40960) < 40960) ∧
    (∃ n, getNumPagesByIdx idx = some n ∧
      IsLeast {n | 1 ≤ n ∧ size ∣ n * 4096} n.toNat) ∧
    (32 < 40960 → getIdxBySize 40960 = idx) ∧
    (40960 ≤ 32 →
      getRoundedSizeByIdx (getIdxBySize 40960) = if 40960 ≤ 16 then none else some 8) :=
  computed_class_least.2.2 40960 (by decide) (by decide)

example : getSizeClass 81 = .base 10 := by decide

example : [8, 9, 24, 25, 32, 0].map getIdxBySize = [249, 253, 1, 1, 1, 252] := by decide

end MiSizeClass

end UniAlloc
