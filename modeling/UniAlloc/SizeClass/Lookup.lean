import UniAlloc.SizeClass.Rounding
import Mathlib.Order.Bounds.Basic

/-!
# Looking up a size class

The default build finds the class of a request and its size in two tables, of indices
and of sizes. The answer is the least class that holds the request, and its size is
the one that the slab allocator uses.
-/

namespace UniAlloc

/-- Classes in the order of their sizes: the large requests come after the tables. -/
def SizeClass.le : SizeClass → SizeClass → Prop
  | .base i, .base j => i ≤ j
  | .base _, .large _ => True
  | .large _, .base _ => False
  | .large m, .large n => m ≤ n

namespace TcSizeClass

def SIZE_ARRAY : List Nat :=
  [0, 8, 16, 24, 32, 40, 48, 56, 64, 72, 80, 88, 96, 104, 112, 120, 128, 144, 160, 176, 192,
    208, 224, 240, 256, 280, 304, 352, 384, 424, 480, 512, 576, 640, 704, 832, 896, 1024, 1152,
    1280, 1408, 1536, 1792, 2048, 2176, 2304, 2432, 2944, 3200, 3584, 4096, 4608, 5376, 6528,
    8192, 9344, 10880, 13056, 13952, 16384, 19072, 21760, 24576, 28032]

/-- An access out of bounds panics, which is `none`. -/
def getSizeclassTuple2 (reqSize : Nat) : Option (SizeClass × Nat) :=
  if reqSize ≤ 1024 then do
    let idx := (reqSize + 7) >>> 3
    let newSizeIdx ← IDX_ARRAY[idx]?
    let newSize ← SIZE_ARRAY[newSizeIdx]?
    some (.base newSizeIdx, newSize)
  else if reqSize ≤ MAX_SIZE then do
    let idx := (reqSize + 127 + (120 <<< 7)) >>> 7
    let newSizeIdx ← IDX_ARRAY[idx]?
    let newSize ← SIZE_ARRAY[newSizeIdx]?
    some (.base newSizeIdx, newSize)
  else some (.large reqSize, reqSize)

def getIndexAndSize (reqSize : Nat) : Option (SizeClass × Nat) := getSizeclassTuple2 reqSize

theorem getRoundedSizeByIdx_mono {i j : Nat} (hij : i ≤ j) (hj : j < TOTAL_SIZE_CLASS) :
    getRoundedSizeByIdx i ≤ getRoundedSizeByIdx j := by
  have next : ∀ k < TOTAL_SIZE_CLASS - 1,
      getRoundedSizeByIdx k ≤ getRoundedSizeByIdx (k + 1) := by
    decide
  induction hij with
  | refl => exact le_rfl
  | @step k _ ih => exact (ih (Nat.lt_of_succ_lt hj)).trans (next k (Nat.lt_sub_of_add_lt hj))

/-- The two tables of sizes agree. -/
theorem sizes_agree : SIZE_ARRAY = SIZE_CLASSES := by
  decide

theorem sizes_getElem? {idx : Nat} (h : idx < TOTAL_SIZE_CLASS) :
    SIZE_CLASSES[idx]? = some (getRoundedSizeByIdx idx) := by
  rw [getRoundedSizeByIdx, List.getD_eq_getElem?_getD, List.getElem?_eq_getElem h,
    Option.getD_some]

theorem getSizeclassTuple2_small {req idx : Nat} (h : req ≤ MAX_SIZE)
    (hidx : IDX_ARRAY[entryOf req]? = some idx) (hlt : idx < TOTAL_SIZE_CLASS) :
    getSizeclassTuple2 req = some (.base idx, getRoundedSizeByIdx idx) := by
  have hsize : SIZE_ARRAY[idx]? = some (getRoundedSizeByIdx idx) := by
    rw [sizes_agree, sizes_getElem? hlt]
  rw [entryOf] at hidx
  split at hidx
  · next hsmall =>
      simp only [getSizeclassTuple2, if_pos hsmall, hidx, hsize, Option.bind_eq_bind,
        Option.bind_some]
  · next hlarge =>
      simp only [getSizeclassTuple2, if_neg hlarge, if_pos h, hidx, hsize, Option.bind_eq_bind,
        Option.bind_some]

/-- The class of a small request is the least that holds it. -/
theorem isLeast_of_fits {req idx : Nat} (h : req ≤ MAX_SIZE) (fits : EntryFits idx (entryOf req)) :
    IsLeast {i | i < TOTAL_SIZE_CLASS ∧ req ≤ getRoundedSizeByIdx i} idx := by
  obtain ⟨hlt, -, htop, hbelow⟩ := fits
  obtain ⟨-, hsize, habove⟩ := entryOf_spec h
  refine ⟨⟨hlt, hsize.trans htop⟩, ?_⟩
  rintro i ⟨-, hi⟩
  by_contra hlow
  obtain ⟨hentry, hbefore⟩ := hbelow (by omega)
  -- the class before `idx` holds at least as much as class `i`
  have hle : getRoundedSizeByIdx i ≤ getRoundedSizeByIdx (idx - 1) :=
    getRoundedSizeByIdx_mono (by omega) (lt_of_le_of_lt (Nat.sub_le _ _) hlt)
  have := habove hentry
  omega

theorem getSizeClass_large {req : Nat} (h : MAX_SIZE < req) : getSizeClass req = .large req := by
  have hbig : ¬req ≤ 1024 := Nat.not_le.mpr (lt_trans (by decide) h)
  rw [getSizeClass, if_neg hbig, if_neg (Nat.not_le.mpr h)]

theorem getSizeclassTuple2_large {req : Nat} (h : MAX_SIZE < req) :
    getSizeclassTuple2 req = some (.large req, req) := by
  have hbig : ¬req ≤ 1024 := Nat.not_le.mpr (lt_trans (by decide) h)
  rw [getSizeclassTuple2, if_neg hbig, if_neg (Nat.not_le.mpr h)]

theorem getSizeClass_mono {req req' : Nat} (h : req ≤ req') :
    (getSizeClass req).le (getSizeClass req') := by
  obtain hlarge | hsmall := Nat.lt_or_ge MAX_SIZE req
  · rw [getSizeClass_large hlarge, getSizeClass_large (hlarge.trans_le h)]
    exact h
  · obtain ⟨i, -, hi, fits⟩ := getSizeClass_fits hsmall
    obtain hlarge | hsmall' := Nat.lt_or_ge MAX_SIZE req'
    · rw [getSizeClass_large hlarge, hi]
      trivial
    · obtain ⟨j, -, hj, fits'⟩ := getSizeClass_fits hsmall'
      obtain ⟨hlt, hheld⟩ := (isLeast_of_fits hsmall' fits').1
      rw [hi, hj]
      exact (isLeast_of_fits hsmall fits).2 ⟨hlt, h.trans hheld⟩

/-- Every request is answered with the least class that holds it, whose size is in both
tables, or as a large one; and a larger request is answered with a larger class. -/
theorem lookup_least :
    (∀ req, ∃ size, getIndexAndSize req = some (getSizeClass req, size) ∧
      (getSizeClass req = .large req ↔ 28032 < req) ∧
      (req ≤ 28032 → ∃ i, getSizeClass req = .base i ∧
        IsLeast {i | i < TOTAL_SIZE_CLASS ∧ req ≤ getRoundedSizeByIdx i} i ∧
        SIZE_CLASSES[i]? = some size ∧ size = getRoundedSizeByIdx i ∧ (i = 0 → req = 0))) ∧
    ∀ req req', req ≤ req' → (getSizeClass req).le (getSizeClass req') := by
  refine ⟨fun req => ?_, fun _ _ => getSizeClass_mono⟩
  obtain hlarge | hsmall := Nat.lt_or_ge 28032 req
  · refine ⟨req, ?_, iff_of_true (getSizeClass_large hlarge) hlarge, fun hle => by omega⟩
    rw [getSizeClass_large hlarge]
    exact getSizeclassTuple2_large hlarge
  · obtain ⟨idx, hentry, hclass, fits⟩ := getSizeClass_fits hsmall
    refine ⟨getRoundedSizeByIdx idx, ?_, ?_, fun _ => ⟨idx, hclass, isLeast_of_fits hsmall fits,
      sizes_getElem? fits.1, rfl, ?_⟩⟩
    · rw [hclass]
      exact getSizeclassTuple2_small hsmall hentry fits.1
    · rw [hclass]
      exact iff_of_false SizeClass.noConfusion (Nat.not_lt.mpr hsmall)
    · rintro rfl
      exact Nat.le_zero.mp (isLeast_of_fits hsmall fits).1.2

example : getIndexAndSize 1025 = some (.base 38, 1152) := by decide

end TcSizeClass

end UniAlloc
