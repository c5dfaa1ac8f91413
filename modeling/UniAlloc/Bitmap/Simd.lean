import Mathlib.Algebra.BigOperators.Fin
import Mathlib.Algebra.BigOperators.Ring.Finset
import Mathlib.Data.BitVec
import Mathlib.Data.Fin.VecNotation
import Mathlib.Tactic.Abel
import Mathlib.Tactic.FinCases
import UniAlloc.Rank.Basic

/-!
# Vector instructions

An `__m512i` holds eight words of 64 bits. `popcntM512i` counts the ones of each word
byte by byte, and `prefixsumM512i` adds up the words before each word in three steps.
-/

namespace UniAlloc.BitmapAlloc

/-- A `u64`. -/
abbrev U64 := BitVec 64

/-- An `__m512i`, by its 64-bit lanes. -/
abbrev M512 := Vector U64 8

/-- The word with the bits `f`. -/
def ofBits : (w : Nat) → (Nat → Bool) → BitVec w
  | 0, _ => 0#0
  | w + 1, f => BitVec.cons (f w) (ofBits w f)

/-- Lane `b` of width `w` of a word. -/
def lane (w : Nat) (x : U64) (b : Nat) : BitVec w := x.extractLsb' (b * w) w

/-- The word with the lanes `f`. -/
def ofLanes (w : Nat) (f : Nat → BitVec w) : U64 :=
  ofBits 64 fun i => (f (i / w)).getLsbD (i % w)

def mm512SetEpi64 (e7 e6 e5 e4 e3 e2 e1 e0 : U64) : M512 :=
  #v[e0, e1, e2, e3, e4, e5, e6, e7]

def mm512Set1Epi8 (a : BitVec 8) : M512 := .ofFn fun _ => ofLanes 8 fun _ => a

def mm512SetzeroSi512 : M512 := .ofFn fun _ => 0

def mm512AndEpi64 (a b : M512) : M512 := .ofFn fun j => a[j] &&& b[j]

def mm512AddEpi64 (a b : M512) : M512 := .ofFn fun j => a[j] + b[j]

def mm512AddEpi8 (a b : M512) : M512 := .ofFn fun j =>
  ofLanes 8 fun i => lane 8 a[j] i + lane 8 b[j] i

def mm512SubEpi8 (a b : M512) : M512 := .ofFn fun j =>
  ofLanes 8 fun i => lane 8 a[j] i - lane 8 b[j] i

/-- The 16-bit lanes are shifted, so that bits move from one byte to the next. -/
def mm512SrliEpi16 (a : M512) (imm : Nat) : M512 := .ofFn fun j =>
  ofLanes 16 fun i => lane 16 a[j] i >>> imm

/-- The sums of the absolute differences of the bytes of each word. -/
def mm512SadEpu8 (a b : M512) : M512 := .ofFn fun j =>
  ∑ i ∈ Finset.range 8,
    (if lane 8 a[j] i ≤ lane 8 b[j] i then lane 8 b[j] i - lane 8 a[j] i
      else lane 8 a[j] i - lane 8 b[j] i).setWidth 64

/-- The words that `idx` names, and zero where the mask has no bit. -/
def mm512MaskzPermutexvarEpi64 (k : BitVec 8) (idx a : M512) : M512 := .ofFn fun j =>
  if k.getLsbD j then a[idx[j].toNat % 8] else 0

/-- The mask of the lanes in which `a` is at most `b`, as signed words. -/
def mm512CmpleEpi64Mask (a b : M512) : BitVec 8 := ofBits 8 fun j =>
  a[j % 8].sle b[j % 8]

/-- Computes the prefix sums of eight words. -/
def prefixsumM512i (x : M512) : M512 :=
  let i1 := mm512SetEpi64 6 5 4 3 2 1 0 7
  let i2 := mm512SetEpi64 5 4 3 2 1 0 7 6
  let i3 := mm512SetEpi64 3 2 1 0 7 6 5 4
  let x := mm512AddEpi64 x (mm512MaskzPermutexvarEpi64 0b11111110 i1 x)
  let x := mm512AddEpi64 x (mm512MaskzPermutexvarEpi64 0b11111100 i2 x)
  mm512AddEpi64 x (mm512MaskzPermutexvarEpi64 0b11110000 i3 x)

/-- Counts the ones of eight words. -/
def popcntM512i (v : M512) : M512 :=
  let m1 := mm512Set1Epi8 0x55
  let m2 := mm512Set1Epi8 0x33
  let m4 := mm512Set1Epi8 0x0f
  let b := mm512AndEpi64 (mm512SrliEpi16 v 1) m1
  let t1 := mm512SubEpi8 v b
  let a := mm512AndEpi64 t1 m2
  let b := mm512AndEpi64 (mm512SrliEpi16 t1 2) m2
  let t2 := mm512AddEpi8 a b
  let t3 := mm512AddEpi8 t2 (mm512SrliEpi16 t2 4)
  let t3 := mm512AndEpi64 t3 m4
  mm512SadEpu8 t3 mm512SetzeroSi512

theorem getElem_ofFn (f : Fin 8 → U64) (j : Fin 8) : (Vector.ofFn f)[j] = f j := by
  rw [Fin.getElem_fin, Vector.getElem_ofFn]

/-- The lanes are moved up by one, two and four, with zeros in the first. -/
theorem maskz_permutexvar_shift (x : M512) (j : Fin 8) :
    (mm512MaskzPermutexvarEpi64 0b11111110 (mm512SetEpi64 6 5 4 3 2 1 0 7) x)[j] =
        (if 1 ≤ j then x[j - 1] else 0) ∧
      (mm512MaskzPermutexvarEpi64 0b11111100 (mm512SetEpi64 5 4 3 2 1 0 7 6) x)[j] =
        (if 2 ≤ j then x[j - 2] else 0) ∧
      (mm512MaskzPermutexvarEpi64 0b11110000 (mm512SetEpi64 3 2 1 0 7 6 5 4) x)[j] =
        if 4 ≤ j then x[j - 4] else 0 := by
  fin_cases j <;> simp [mm512MaskzPermutexvarEpi64, mm512SetEpi64]

theorem getElem_add_epi64 (a b : M512) (j : Fin 8) : (mm512AddEpi64 a b)[j] = a[j] + b[j] := by
  rw [mm512AddEpi64, getElem_ofFn]

/-- Each lane holds the sum of the lanes up to it. -/
theorem getElem_prefixsum (x : M512) (j : Fin 8) :
    (prefixsumM512i x)[j] = ∑ k ∈ Finset.range (j + 1), x[k % 8] := by
  simp only [prefixsumM512i, getElem_add_epi64, (maskz_permutexvar_shift _ _).1,
    (maskz_permutexvar_shift _ _).2.1, (maskz_permutexvar_shift _ _).2.2]
  fin_cases j <;> simp [Finset.sum_range_succ] <;> abel

@[simp] theorem getLsbD_ofBits (w : Nat) (f : Nat → Bool) (i : Nat) :
    (ofBits w f).getLsbD i = (decide (i < w) && f i) := by
  induction w with
  | zero => simp [ofBits]
  | succ w ih =>
      rw [ofBits, BitVec.getLsbD_cons, ih]
      split
      · next hi => simp [hi]
      · next hi => rw [decide_eq_decide.mpr (by omega : i < w ↔ i < w + 1)]

theorem getLsbD_lane {w b i : Nat} (x : U64) (hi : i < w) :
    (lane w x b).getLsbD i = x.getLsbD (b * w + i) := by
  rw [lane, BitVec.getLsbD_extractLsb', decide_eq_true hi, Bool.true_and]

theorem getLsbD_ofLanes {w b i : Nat} (f : Nat → BitVec w) (hi : i < w) (hb : b * w + i < 64) :
    (ofLanes w f).getLsbD (b * w + i) = (f b).getLsbD i := by
  rw [ofLanes, getLsbD_ofBits, decide_eq_true hb, Bool.true_and, Nat.add_comm,
    Nat.add_mul_div_right _ _ (by omega), Nat.div_eq_of_lt hi, Nat.zero_add,
    Nat.add_mul_mod_self_right, Nat.mod_eq_of_lt hi]

theorem lane_ofLanes {w b : Nat} (f : Nat → BitVec w) (hb : (b + 1) * w ≤ 64) :
    lane w (ofLanes w f) b = f b := by
  apply BitVec.eq_of_getLsbD_eq
  intro i hi
  rw [Nat.add_mul, Nat.one_mul] at hb
  rw [getLsbD_lane _ hi, getLsbD_ofLanes f hi (by omega)]

theorem lane_and (w : Nat) (x y : U64) (b : Nat) : lane w (x &&& y) b = lane w x b &&& lane w y b :=
  BitVec.extractLsb'_and ..

/-- What a shift in 16-bit lanes brings in from the next byte does not pass a mask that is low
enough. -/
theorem lane_srli_and {m : BitVec 8} {b n : Nat} (x : U64) (hb : b < 8)
    (hm : ∀ i < 8, m.getLsbD i → i + n < 8) :
    lane 8 (ofLanes 16 fun i => lane 16 x i >>> n) b &&& m = lane 8 x b >>> n &&& m := by
  apply BitVec.eq_of_getLsbD_eq
  intro i hi
  rw [BitVec.getLsbD_and, BitVec.getLsbD_and]
  by_cases hmask : m.getLsbD i
  · have hlow := hm i hi hmask
    have hpos : b * 8 + i = b / 2 * 16 + (b % 2 * 8 + i) := by omega
    rw [getLsbD_lane _ hi, hpos, getLsbD_ofLanes _ (by omega) (by omega),
      BitVec.getLsbD_ushiftRight, BitVec.getLsbD_ushiftRight, getLsbD_lane _ (by omega),
      getLsbD_lane _ (by omega)]
    congr 2
    omega
  · rw [Bool.not_eq_true] at hmask
    rw [hmask, Bool.and_false, Bool.and_false]

/-- The number of ones of a word. -/
def ones {w : Nat} (x : BitVec w) : Nat := Nat.count (fun i => x.getLsbD i = true) w

/-- The steps of `popcntM512i` on a byte. -/
def popcntByte (x : BitVec 8) : BitVec 8 :=
  let t1 := x - (x >>> 1 &&& 0x55)
  let t2 := (t1 &&& (0x33 : BitVec 8)) + (t1 >>> 2 &&& (0x33 : BitVec 8))
  t2 + t2 >>> 4 &&& 0x0f

theorem popcntByte_eq : ∀ x : BitVec 8, (popcntByte x).toNat = ones x := by decide +kernel

/-- The low half of a sum depends on the low halves. -/
theorem add_and_low (x y : BitVec 8) : x + y &&& 0x0f = x + (y &&& 0x0f) &&& 0x0f := by
  apply BitVec.eq_of_toNat_eq
  have hmask : BitVec.toNat (0x0f : BitVec 8) = 2 ^ 4 - 1 := rfl
  simp only [BitVec.toNat_and, BitVec.toNat_add, hmask, Nat.and_two_pow_sub_one_eq_mod]
  omega

/-- `popcntM512i` takes its steps on every byte. -/
theorem lane_popcnt (v : M512) (j : Fin 8) {b : Nat} (hb : b < 8) :
    let t1 := mm512SubEpi8 v (mm512AndEpi64 (mm512SrliEpi16 v 1) (mm512Set1Epi8 0x55))
    let t2 := mm512AddEpi8 (mm512AndEpi64 t1 (mm512Set1Epi8 0x33))
      (mm512AndEpi64 (mm512SrliEpi16 t1 2) (mm512Set1Epi8 0x33))
    lane 8 (mm512AndEpi64 (mm512AddEpi8 t2 (mm512SrliEpi16 t2 4))
      (mm512Set1Epi8 0x0f))[j] b = popcntByte (lane 8 v[j] b) := by
  intro t1 t2
  have hset : ∀ a, lane 8 (mm512Set1Epi8 a)[j] b = a := fun a => by
    rw [mm512Set1Epi8, getElem_ofFn, lane_ofLanes _ (by omega)]
  have hand : ∀ x y : M512, lane 8 (mm512AndEpi64 x y)[j] b = lane 8 x[j] b &&& lane 8 y[j] b :=
    fun x y => by
      rw [mm512AndEpi64, getElem_ofFn, lane_and]
  have hadd : ∀ x y : M512, lane 8 (mm512AddEpi8 x y)[j] b = lane 8 x[j] b + lane 8 y[j] b :=
    fun x y => by
      rw [mm512AddEpi8, getElem_ofFn, lane_ofLanes _ (by omega)]
  have hsub : ∀ x y : M512, lane 8 (mm512SubEpi8 x y)[j] b = lane 8 x[j] b - lane 8 y[j] b :=
    fun x y => by
      rw [mm512SubEpi8, getElem_ofFn, lane_ofLanes _ (by omega)]
  have hshift : ∀ (x : M512) (m : BitVec 8) (n : Nat), (∀ i < 8, m.getLsbD i → i + n < 8) →
      lane 8 (mm512SrliEpi16 x n)[j] b &&& m = lane 8 x[j] b >>> n &&& m := fun x m n hm => by
    rw [mm512SrliEpi16, getElem_ofFn, lane_srli_and _ hb hm]
  have ht1 : lane 8 t1[j] b = lane 8 v[j] b - (lane 8 v[j] b >>> 1 &&& 0x55) := by
    rw [hsub, hand, hset, hshift v _ 1 (by decide)]
  have ht2 : lane 8 t2[j] b =
      (lane 8 t1[j] b &&& (0x33 : BitVec 8)) + (lane 8 t1[j] b >>> 2 &&& (0x33 : BitVec 8)) := by
    rw [hadd, hand, hset, hand, hset, hshift t1 _ 2 (by decide)]
  rw [hand, hset, hadd, add_and_low, hshift t2 _ 4 (by decide), ← add_and_low, ht2, ht1,
    popcntByte]

/-- Each lane holds the number of ones of its word. -/
theorem getElem_popcnt (v : M512) (j : Fin 8) : (popcntM512i v)[j] = (ones v[j] : U64) := by
  have hbyte : ∀ b, ∀ x : BitVec 8, x = popcntByte (lane 8 v[j] b) →
      (if x ≤ lane 8 (0 : U64) b then lane 8 (0 : U64) b - x else x - lane 8 (0 : U64) b).setWidth 64 =
        ((Nat.count (fun i => v[j].getLsbD (b * 8 + i) = true) 8 : Nat) : U64) := by
    rintro b - rfl
    have hzero : lane 8 (0 : U64) b = 0 := by simp [lane]
    have hones : ones (lane 8 v[j] b) =
        Nat.count (fun i => v[j].getLsbD (b * 8 + i) = true) 8 :=
      Rank.count_congr fun i hi => by rw [getLsbD_lane _ hi]
    have habs : ∀ x : BitVec 8, (if x ≤ 0 then 0 - x else x - 0) = x := by decide
    rw [hzero, habs, ← hones, ← popcntByte_eq]
    apply BitVec.eq_of_toNat_eq
    rw [BitVec.toNat_setWidth]
    rfl
  have hones : ones v[j] =
      ∑ b ∈ Finset.range 8, Nat.count (fun i => v[j].getLsbD (b * 8 + i) = true) 8 :=
    Rank.count_mul 8 8
  rw [hones, Nat.cast_sum, popcntM512i, mm512SadEpu8, getElem_ofFn]
  apply Finset.sum_congr rfl
  intro b hb
  rw [mm512SetzeroSi512, getElem_ofFn]
  exact hbyte b _ (lane_popcnt v j (Finset.mem_range.mp hb))

end UniAlloc.BitmapAlloc
