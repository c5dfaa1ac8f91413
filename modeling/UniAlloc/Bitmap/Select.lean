import Mathlib.Tactic.IntervalCases
import UniAlloc.Bitmap.Simd

/-!
# Bitmaps with rank and select

`SIMDBitmap512` keeps 512 bits and, for each of their eight words, the number of ones up to
it. `select` finds the word of the `k`-th one by comparing `k` with all eight numbers at once
and the bit in the word by a deposit of a single bit.
-/

namespace UniAlloc.BitmapAlloc

/-- The number of ones of each byte. -/
def ltCnt : List Nat :=
  [0, 1, 1, 2, 1, 2, 2, 3, 1, 2, 2, 3, 2, 3, 3, 4, 1, 2, 2, 3, 2, 3, 3, 4, 2, 3, 3, 4, 3, 4, 4, 5,
    1, 2, 2, 3, 2, 3, 3, 4, 2, 3, 3, 4, 3, 4, 4, 5, 2, 3, 3, 4, 3, 4, 4, 5, 3, 4, 4, 5, 4, 5, 5, 6,
    1, 2, 2, 3, 2, 3, 3, 4, 2, 3, 3, 4, 3, 4, 4, 5, 2, 3, 3, 4, 3, 4, 4, 5, 3, 4, 4, 5, 4, 5, 5, 6,
    2, 3, 3, 4, 3, 4, 4, 5, 3, 4, 4, 5, 4, 5, 5, 6, 3, 4, 4, 5, 4, 5, 5, 6, 4, 5, 5, 6, 5, 6, 6, 7,
    1, 2, 2, 3, 2, 3, 3, 4, 2, 3, 3, 4, 3, 4, 4, 5, 2, 3, 3, 4, 3, 4, 4, 5, 3, 4, 4, 5, 4, 5, 5, 6,
    2, 3, 3, 4, 3, 4, 4, 5, 3, 4, 4, 5, 4, 5, 5, 6, 3, 4, 4, 5, 4, 5, 5, 6, 4, 5, 5, 6, 5, 6, 6, 7,
    2, 3, 3, 4, 3, 4, 4, 5, 3, 4, 4, 5, 4, 5, 5, 6, 3, 4, 4, 5, 4, 5, 5, 6, 4, 5, 5, 6, 5, 6, 6, 7,
    3, 4, 4, 5, 4, 5, 5, 6, 4, 5, 5, 6, 5, 6, 6, 7, 4, 5, 5, 6, 5, 6, 6, 7, 5, 6, 6, 7, 6, 7, 7, 8]

/-- `_pdep_u64`: the low bits of `a` are placed at the ones of the mask. -/
def pdepU64 (a mask : U64) : U64 :=
  ofBits 64 fun i => mask.getLsbD i && a.getLsbD (Nat.count (fun j => mask.getLsbD j = true) i)

/-- `_tzcnt_u64`: the number of zeros below the lowest one. -/
def tzcntU64 (a : U64) : U64 := BitVec.ofNat 64 ((List.range 64).findIdx fun i => a.getLsbD i)

/-- The position of the one with index `i`. Without overflow checks the amount of the shift is
masked. -/
def selectU64 (x i : U64) : U64 := tzcntU64 (pdepU64 ((1 : U64) <<< (i.toNat % 64)) x)

/-- A bitmap of 512 bits. -/
structure SIMDBitmap512 where
  prefixSum : Vector U64 8
  bits : Vector U64 8

namespace SIMDBitmap512

def new : SIMDBitmap512 := ⟨.replicate 8 0, .replicate 8 0⟩

def realSize (self : SIMDBitmap512) : U64 := self.prefixSum[7]

def isFull (self : SIMDBitmap512) : Bool := self.prefixSum[7] = 512

def fillZero (_self : SIMDBitmap512) : SIMDBitmap512 := ⟨.replicate 8 0, .replicate 8 0⟩

/-- Gets the bit `n`. -/
def get (self : SIMDBitmap512) (n : Nat) : Option Bool := do
  let w ← self.bits[n / 64]?
  return w &&& (1 : U64) <<< (n % 64) ≠ 0

def computePrefixSum (self : SIMDBitmap512) : SIMDBitmap512 :=
  { self with prefixSum := prefixsumM512i (popcntM512i self.bits) }

/-- Flips the bit `n`. -/
def flip (self : SIMDBitmap512) (n : Nat) : Option SIMDBitmap512 :=
  let w := n / 64
  let offset := n &&& 63
  if h : w < 8 then
    let bits := self.bits.set w (self.bits[w] ^^^ (1 : U64) <<< offset)
    some { self with bits }.computePrefixSum
  else none

/-- The position of the one with index `k`. -/
def select (self : SIMDBitmap512) (k : U64) : Option U64 := do
  let msums := self.prefixSum
  let mk := mm512SetEpi64 k k k k k k k k
  let mask := mm512CmpleEpi64Mask msums mk
  let i ← ltCnt[mask.toNat]?
  let sums := 0 :: msums.toList
  let x ← self.bits[i]?
  let sum ← sums[i]?
  let idx := k - sum
  return BitVec.ofNat 64 i * 64 + selectU64 x idx

/-- The position of the first one. -/
def indexFs (self : SIMDBitmap512) : Option U64 := self.select 0

/-- The bitmap after the flips. -/
def flips (self : SIMDBitmap512) : List Nat → Option SIMDBitmap512
  | [] => some self
  | n :: ns => do
      let self ← self.flip n
      flips self ns

end SIMDBitmap512

theorem and_one_shiftLeft_ne_zero (x : U64) {i : Nat} (hi : i < 64) :
    x &&& (1 : U64) <<< i ≠ 0 ↔ x.getLsbD i = true := by
  have htwo : (1 : U64) <<< i = BitVec.twoPow 64 i := rfl
  rw [htwo, BitVec.and_twoPow]
  split
  · next hbit =>
      have hne : BitVec.twoPow 64 i ≠ 0 := by
        intro hzero
        have := congrArg BitVec.toNat hzero
        rw [BitVec.toNat_twoPow_of_lt hi] at this
        exact (Nat.two_pow_pos i).ne' this
      exact iff_of_true hne hbit
  · next hbit => exact iff_of_false (not_not.mpr rfl) hbit

theorem getLsbD_one_shiftLeft {i j : Nat} (hj : j < 64) :
    ((1 : U64) <<< i).getLsbD j = decide (j = i) := by
  have htwo : (1 : U64) <<< i = BitVec.twoPow 64 i := rfl
  rw [htwo, BitVec.getLsbD_twoPow]
  by_cases h : i = j
  · simp [h, hj]
  · simp [h, Ne.symm h]

/-- A deposited bit is counted up to from below. -/
theorem tzcntU64_of_bit {x : U64} {q : Nat} (hq : q < 64)
    (hx : ∀ i < 64, x.getLsbD i = decide (i = q)) : tzcntU64 x = BitVec.ofNat 64 q := by
  rw [tzcntU64]
  congr 1
  apply List.findIdx_eq (by rwa [List.length_range]) |>.mpr
  constructor
  · rw [List.getElem_range, hx q hq, decide_eq_true rfl]
  · intro j hj
    rw [List.getElem_range, hx j (by omega), decide_eq_false (by omega)]

/-- The index of a one is the number of ones below it. -/
theorem selectU64_of_bit {x i : U64} {q : Nat} (hq : q < 64) (hx : x.getLsbD q = true)
    (hi : i.toNat = Nat.count (fun j => x.getLsbD j = true) q) :
    selectU64 x i = BitVec.ofNat 64 q := by
  have hle : i.toNat < 64 := by
    rw [hi]
    exact (Nat.count_le ..).trans_lt hq
  rw [selectU64, Nat.mod_eq_of_lt hle]
  apply tzcntU64_of_bit hq
  intro m hm
  rw [pdepU64, getLsbD_ofBits, decide_eq_true hm, Bool.true_and,
    getLsbD_one_shiftLeft ((Nat.count_le ..).trans_lt hm), hi]
  by_cases hmq : m = q
  · rw [hmq, hx, decide_eq_true rfl, decide_eq_true rfl, Bool.and_self]
  · rw [decide_eq_false hmq]
    by_cases hbit : x.getLsbD m
    · rw [decide_eq_false fun heq => hmq (Nat.count_injective hbit hx heq), Bool.and_false]
    · rw [Bool.not_eq_true] at hbit
      rw [hbit, Bool.false_and]

namespace SIMDBitmap512

variable {self : SIMDBitmap512} {set : Nat → Bool} {n p : Nat}

theorem get_eq {α : Type} (v : Vector α 8) (w : Fin 8) (h : (w : Nat) < 8) :
    v.get w = v[(w : Nat)] := rfl

/-- The words hold the bits of the set. -/
def Holds (self : SIMDBitmap512) (set : Nat → Bool) : Prop :=
  ∀ w : Fin 8, ∀ i < 64, (self.bits.get w).getLsbD i = set (w * 64 + i)

/-- The number of elements of the set below `n`. -/
def rank (set : Nat → Bool) (n : Nat) : Nat := Nat.count (fun i => set i = true) n

/-- The bitmap stands for the set, and its prefix sums are up to date. -/
structure Represents (b : SIMDBitmap512) (set : Nat → Bool) : Prop where
  holds : b.Holds set
  prefixSum : ∀ w : Fin 8, (b.prefixSum.get w).toNat = rank set (64 * (w + 1))

theorem rank_le (set : Nat → Bool) (n : Nat) : rank set n ≤ n := Nat.count_le ..

theorem Holds.ones (holds : self.Holds set) (w : Fin 8) :
    ones (self.bits.get w) = Nat.count (fun i => set (w * 64 + i) = true) 64 :=
  Rank.count_congr fun i hi => by rw [holds w i hi]

/-- The prefix sums are computed from the words. -/
theorem Holds.computePrefixSum (holds : self.Holds set) :
    self.computePrefixSum.Represents set := by
  refine ⟨holds, ?_⟩
  intro w
  have hsum : ∑ k ∈ Finset.range (w + 1), BitmapAlloc.ones self.bits[k % 8] =
      rank set (64 * (w + 1)) := by
    rw [rank, Nat.mul_comm, Rank.count_mul]
    apply Finset.sum_congr rfl
    intro k hk
    have hlt : k < 8 := by
      rw [Finset.mem_range] at hk
      omega
    have := holds.ones ⟨k, hlt⟩
    simpa only [get_eq _ ⟨k, hlt⟩ hlt, Nat.mod_eq_of_lt hlt] using this
  have hterm : ∀ k ∈ Finset.range (w + 1), (popcntM512i self.bits)[k % 8] =
      (BitmapAlloc.ones self.bits[k % 8] : U64) := fun k _ =>
    getElem_popcnt self.bits ⟨k % 8, Nat.mod_lt k (by omega)⟩
  change (prefixsumM512i (popcntM512i self.bits))[w].toNat = _
  rw [getElem_prefixsum, Finset.sum_congr rfl hterm, ← Nat.cast_sum, hsum]
  have := rank_le set (64 * (w + 1))
  exact Nat.mod_eq_of_lt (by omega)

theorem represents_zero : Represents ⟨.replicate 8 0, .replicate 8 0⟩ fun _ => false := by
  constructor
  · intro w i _
    rw [get_eq _ _ w.isLt, Vector.getElem_replicate, BitVec.ofNat_eq_ofNat, BitVec.getLsbD_zero]
  · intro w
    rw [get_eq _ _ w.isLt, Vector.getElem_replicate, rank]
    exact (Nat.count_iff_forall_not.mpr (by simp)).symm

theorem Represents.get (rep : self.Represents set) (hn : n < 512) :
    self.get n = some (set n) := by
  have hbit := rep.holds ⟨n / 64, by omega⟩ (n % 64) (Nat.mod_lt n (by omega))
  dsimp only at hbit
  rw [show n / 64 * 64 + n % 64 = n by omega] at hbit
  have hword : self.bits[n / 64]? = some (self.bits.get ⟨n / 64, by omega⟩) :=
    Vector.getElem?_eq_getElem (by omega)
  rw [SIMDBitmap512.get, hword, Option.bind_eq_bind, Option.bind_some, ← hbit]
  simp only [and_one_shiftLeft_ne_zero _ (Nat.mod_lt n (by omega : 0 < 64)), Option.pure_def,
    Bool.decide_eq_true]

/-- A flip adds its position or takes it out. -/
theorem Represents.flip (rep : self.Represents set) (hn : n < 512) :
    ∃ self', self.flip n = some self' ∧ self'.Represents fun m => set m ^^ decide (m = n) := by
  have hw : n / 64 < 8 := by omega
  rw [SIMDBitmap512.flip, dif_pos hw]
  refine ⟨_, rfl, Holds.computePrefixSum ?_⟩
  intro w i hi
  have hoffset : n &&& 63 = n % 64 := Nat.and_two_pow_sub_one_eq_mod n 6
  rw [get_eq _ _ w.isLt, Vector.getElem_set]
  split
  · next heq =>
      have hbit := rep.holds w i hi
      have hat : decide (w * 64 + i = n) = decide (i = n % 64) := decide_eq_decide.mpr (by omega)
      dsimp only
      rw [BitVec.getLsbD_xor, getLsbD_one_shiftLeft hi, hoffset, ← hbit, hat]
      simp only [heq, get_eq _ w w.isLt]
  · next hne =>
      have hother : decide (w * 64 + i = n) = false := decide_eq_false (by omega)
      dsimp only
      rw [hother, Bool.xor_false]
      exact rep.holds w i hi

theorem ltCnt_eq : ∀ m : BitVec 8, ltCnt[m.toNat]? = some (ones m) := by decide +kernel

/-- The mask has a one for each word whose prefix sum is at most `k`. -/
theorem Represents.mask (rep : self.Represents set) {k : U64} (hk : k.toNat ≤ 512) :
    ones (mm512CmpleEpi64Mask self.prefixSum (mm512SetEpi64 k k k k k k k k)) =
      Nat.count (fun j => rank set (64 * (j + 1)) ≤ k.toNat) 8 := by
  apply Rank.count_congr
  intro j hj
  have hsplat : (mm512SetEpi64 k k k k k k k k)[j % 8] = k := by
    interval_cases j <;> rfl
  have hsum : self.prefixSum[j].toNat = rank set (64 * (j + 1)) := rep.prefixSum ⟨j, hj⟩
  have hle := rank_le set (64 * (j + 1))
  rw [mm512CmpleEpi64Mask, getLsbD_ofBits, decide_eq_true hj, Bool.true_and, hsplat,
    BitVec.sle_eq_decide, decide_eq_true_iff]
  simp only [Nat.mod_eq_of_lt hj]
  rw [BitVec.toInt_eq_toNat_of_lt (by omega), BitVec.toInt_eq_toNat_of_lt (by omega), hsum,
    Int.ofNat_le]

/-- The words whose prefix sums are at most the rank of `p` are those before the word of `p`. -/
theorem count_words (hp : p < 512) (hset : set p) :
    Nat.count (fun j => rank set (64 * (j + 1)) ≤ rank set p) 8 = p / 64 := by
  have hiff : ∀ j < 8, rank set (64 * (j + 1)) ≤ rank set p ↔ j < p / 64 := by
    intro j _
    rw [rank, rank, Rank.count_le_iff hset]
    omega
  rw [Rank.count_congr hiff, Rank.count_lt]
  omega

/-- Slot `w` of the sentinel-shifted sums holds the number of ones before word `w`. -/
theorem Represents.sums {w : Nat} (rep : self.Represents set) (hw : w < 8) :
    ∃ sum : U64, (0 :: self.prefixSum.toList)[w]? = some sum ∧ sum.toNat = rank set (64 * w) := by
  cases w with
  | zero => exact ⟨0, rfl, (Nat.count_zero _).symm⟩
  | succ w =>
      refine ⟨self.prefixSum[w], ?_, rep.prefixSum ⟨w, by omega⟩⟩
      rw [List.getElem?_cons_succ, Vector.getElem?_toList, Vector.getElem?_eq_getElem]

/-- The one at `p` is selected by the number of ones below it. -/
theorem Represents.select (rep : self.Represents set) (hp : p < 512) (hset : set p) :
    self.select (rank set p) = some (BitVec.ofNat 64 p) := by
  have hw : p / 64 < 8 := by omega
  have hrank := rank_le set p
  have hrank_toNat : ((rank set p : Nat) : U64).toNat = rank set p := Nat.mod_eq_of_lt (by omega)
  obtain ⟨sum, hsum, hsum_toNat⟩ := rep.sums hw
  have hsplit : rank set p = rank set (64 * (p / 64)) +
      Nat.count (fun i => set (64 * (p / 64) + i) = true) (p % 64) := by
    rw [rank, rank, ← Nat.count_add, Nat.div_add_mod]
  have hword : self.bits[p / 64]? = some self.bits[p / 64] := Vector.getElem?_eq_getElem hw
  have hbits : ∀ i < 64, self.bits[p / 64].getLsbD i = set (64 * (p / 64) + i) := by
    intro i hi
    rw [Nat.mul_comm]
    exact rep.holds ⟨p / 64, hw⟩ i hi
  have hle : sum ≤ (rank set p : U64) := by
    rw [BitVec.le_def, hrank_toNat, hsum_toNat]
    omega
  have hidx : ((rank set p : U64) - sum).toNat =
      Nat.count (fun i => self.bits[p / 64].getLsbD i = true) (p % 64) := by
    rw [BitVec.toNat_sub_of_le hle, hrank_toNat, hsum_toNat, hsplit, Nat.add_sub_cancel_left]
    apply Rank.count_congr
    intro i hi
    rw [hbits i (by omega)]
  have hbit : self.bits[p / 64].getLsbD (p % 64) = true := by
    rw [hbits _ (Nat.mod_lt p (by omega)), Nat.div_add_mod, hset]
  have hselect := selectU64_of_bit (Nat.mod_lt p (by omega)) hbit hidx
  have hmask := rep.mask (k := rank set p) (by omega)
  rw [hrank_toNat, count_words hp hset] at hmask
  rw [SIMDBitmap512.select]
  dsimp only
  rw [ltCnt_eq, hmask, Option.bind_eq_bind, Option.bind_some, hword,
    Option.bind_eq_bind, Option.bind_some, hsum, Option.bind_some, hselect, Option.pure_def]
  congr 1
  have h64 : BitVec.toNat (64 : U64) = 64 := rfl
  apply BitVec.eq_of_toNat_eq
  simp only [BitVec.toNat_add, BitVec.toNat_mul, BitVec.toNat_ofNat, h64]
  omega

/-- With an index that is too large the word behind the last is asked for. -/
theorem Represents.select_eq_none (rep : self.Represents set) {k : U64} (hk : k.toNat ≤ 512)
    (h : rank set 512 ≤ k.toNat) : self.select k = none := by
  have hall : ∀ j < 8, rank set (64 * (j + 1)) ≤ k.toNat := by
    intro j hj
    have hle : rank set (64 * (j + 1)) ≤ rank set 512 := Nat.count_monotone _ (by omega)
    omega
  have hmask := rep.mask hk
  rw [Nat.count_of_forall hall] at hmask
  have hword : self.bits[8]? = none := Vector.getElem?_eq_none (Nat.le_refl 8)
  rw [SIMDBitmap512.select]
  dsimp only
  rw [ltCnt_eq, hmask, Option.bind_eq_bind, Option.bind_some, hword, Option.bind_eq_bind,
    Option.bind_none]

/-- The answers of a bitmap that holds the set. -/
structure Answers (b : SIMDBitmap512) (set : Nat → Bool) : Prop where
  prefixSum : ∀ w : Fin 8, (b.prefixSum.get w).toNat = rank set (64 * (w + 1))
  get : ∀ n < 512, b.get n = some (set n)
  select : ∀ k < rank set 512, ∃ p < 512, set p ∧ rank set p = k ∧
    b.select (BitVec.ofNat 64 k) = some (BitVec.ofNat 64 p)
  select_rank : ∀ p < 512, set p → b.select (rank set p) = some (BitVec.ofNat 64 p)
  increasing : ∀ k k' : Nat, k < k' → k' < rank set 512 → ∃ p p' : U64,
    b.select (BitVec.ofNat 64 k) = some p ∧ b.select (BitVec.ofNat 64 k') = some p' ∧ p < p'

theorem Represents.answers (rep : self.Represents set) : self.Answers set := by
  have select : ∀ k < rank set 512, ∃ p < 512, set p ∧ rank set p = k ∧
      self.select (BitVec.ofNat 64 k) = some (BitVec.ofNat 64 p) := by
    intro k hk
    obtain ⟨p, hp, hset, rfl⟩ := Rank.exists_count_eq hk
    exact ⟨p, hp, hset, rfl, rep.select hp hset⟩
  refine ⟨rep.prefixSum, fun n => rep.get, select, fun p => rep.select, ?_⟩
  intro k k' hlt hk'
  obtain ⟨p, hp, hset, hrank, hselect⟩ := select k (hlt.trans hk')
  obtain ⟨p', hp', hset', hrank', hselect'⟩ := select k' hk'
  refine ⟨_, _, hselect, hselect', ?_⟩
  have hpp' : p < p' := by
    by_contra hge
    have hle : rank set p' ≤ rank set p := Nat.count_monotone _ (by omega)
    omega
  rw [BitVec.lt_def, BitVec.toNat_ofNat, BitVec.toNat_ofNat]
  omega

/-- The positions that are flipped an odd number of times. -/
def flipped (ns : List Nat) (n : Nat) : Bool := ns.count n % 2 = 1

theorem Represents.flips {ns : List Nat} (rep : self.Represents set) (hns : ∀ n ∈ ns, n < 512) :
    ∃ b, self.flips ns = some b ∧ b.Represents fun n => set n ^^ flipped ns n := by
  induction ns generalizing self set with
  | nil => exact ⟨self, rfl, by simpa [flipped] using rep⟩
  | cons n ns ih =>
      obtain ⟨b, hflip, rep'⟩ := rep.flip (hns n List.mem_cons_self)
      obtain ⟨b', hflips, rep'⟩ := ih rep' fun m hm => hns m (List.mem_cons_of_mem n hm)
      refine ⟨b', ?_, ?_⟩
      · rw [SIMDBitmap512.flips, hflip, Option.bind_eq_bind, Option.bind_some, hflips]
      · have hset : (fun m => set m ^^ flipped (n :: ns) m) =
            fun m => (set m ^^ decide (m = n)) ^^ flipped ns m := by
          funext m
          rw [Bool.xor_assoc]
          congr 1
          rw [flipped, flipped, List.count_cons]
          by_cases h : m = n
          · simp only [h, BEq.rfl, if_true, decide_true, Bool.true_xor, ← decide_not]
            exact decide_eq_decide.mpr (by omega)
          · simp [h, Ne.symm h]
        rw [hset]
        exact rep'

/-- After any flips of a bitmap that was empty, the answers are those for the positions that
were flipped an odd number of times. -/
theorem flips_answers {b₀ : SIMDBitmap512} {ns : List Nat}
    (hstart : b₀ = new ∨ ∃ b : SIMDBitmap512, b₀ = b.fillZero) (hns : ∀ n ∈ ns, n < 512) :
    ∃ b, b₀.flips ns = some b ∧ b.Answers (flipped ns) := by
  have rep : b₀.Represents fun _ => false := by
    obtain rfl | ⟨b, rfl⟩ := hstart
    · exact represents_zero
    · exact represents_zero
  obtain ⟨b, hflips, rep⟩ := rep.flips hns
  refine ⟨b, hflips, ?_⟩
  simp only [Bool.false_xor] at rep
  exact rep.answers

/-- The first word stays empty when a bit is flipped twice. -/
theorem flips_answers_pair :
    ∃ b, new.flips [64, 3, 511, 3] = some b ∧ b.Answers (flipped [64, 3, 511, 3]) :=
  flips_answers (.inl rfl) (by decide)

end SIMDBitmap512

end UniAlloc.BitmapAlloc
