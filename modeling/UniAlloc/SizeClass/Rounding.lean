import UniAlloc.SizeClass.Basic

/-!
# Rounding to a class

The classes of both builds can be carved from their runs of pages. In the default
build every small request is rounded up; with a fixed heap this depends on the bits
of the request.
-/

namespace UniAlloc

open Slab

namespace SizeClasses

/-- The chunks of a class can be carved from its runs, and the runs can be registered. -/
structure Sound (C : SizeClasses) : Prop where
  size_pos : ∀ idx, 0 < idx → idx < C.TOTAL_SIZE_CLASS → 0 < C.getRoundedSizeByIdx idx
  size_le : ∀ idx, 0 < idx → idx < C.TOTAL_SIZE_CLASS →
    C.getRoundedSizeByIdx idx ≤ PAGE_SIZE * C.getNumPagesByIdx idx
  pages_le : ∀ idx, C.getNumPagesByIdx idx ≤ 4097

/-- A request of `size` bytes is rounded up to class `idx`. -/
structure Rounds (C : SizeClasses) (size idx : Nat) : Prop where
  class_eq : C.getSizeClass size = .base idx
  pos : 0 < idx
  lt : idx < C.TOTAL_SIZE_CLASS
  size_le : size ≤ C.getRoundedSizeByIdx idx

end SizeClasses

theorem getD_le_of_forall {l : List Nat} {b : Nat} (h : ∀ x ∈ l, x ≤ b) (i : Nat) :
    l.getD i 0 ≤ b := by
  rw [List.getD_eq_getElem?_getD]
  cases hi : l[i]? with
  | none => exact Nat.zero_le b
  | some x => exact h x (List.mem_of_getElem? hi)

namespace TcSizeClass

theorem classes_sound : ∀ idx < TOTAL_SIZE_CLASS, 0 < idx →
    0 < getRoundedSizeByIdx idx ∧
      getRoundedSizeByIdx idx ≤ PAGE_SIZE * getNumPagesByIdx idx := by
  decide

/-- The largest request that entry `q` of the index table serves. -/
def entryTop (q : Nat) : Nat := if q ≤ 128 then 8 * q else 128 * (q - 120)

/-- The requests of entry `q` are above this bound. -/
def entryBelow (q : Nat) : Nat := if q ≤ 128 then 8 * (q - 1) else 128 * (q - 121)

/-- Class `idx` holds the requests of entry `q`, and the class before it holds none. -/
def EntryFits (idx q : Nat) : Prop :=
  idx < TOTAL_SIZE_CLASS ∧ (0 < q → 0 < idx) ∧ entryTop q ≤ getRoundedSizeByIdx idx ∧
    (0 < idx → 0 < q ∧ getRoundedSizeByIdx (idx - 1) ≤ entryBelow q)

instance (idx q : Nat) : Decidable (EntryFits idx q) := inferInstanceAs (Decidable (_ ∧ _))

theorem entries_fit : ∀ e ∈ IDX_ARRAY.zipIdx, EntryFits e.1 e.2 := by
  decide +kernel

theorem entryFits_of_getElem? {q idx : Nat} (h : IDX_ARRAY[q]? = some idx) : EntryFits idx q :=
  entries_fit (idx, q) (List.mk_mem_zipIdx_iff_getElem?.mpr h)

theorem idx_length : IDX_ARRAY.length = ((28032 + 127 + (120 <<< 7)) >>> 7) + 1 := by
  decide +kernel

/-- The entry of the index table for a request. -/
def entryOf (req : Nat) : Nat :=
  if req ≤ 1024 then (req + 7) >>> 3 else (req + 127 + (120 <<< 7)) >>> 7

theorem entryOf_spec {req : Nat} (h : req ≤ MAX_SIZE) :
    entryOf req < IDX_ARRAY.length ∧ req ≤ entryTop (entryOf req) ∧
      (0 < entryOf req → entryBelow (entryOf req) < req) := by
  have hle : req ≤ 28032 := h
  have hsmall : (req + 7) >>> 3 = (req + 7) / 8 := Nat.shiftRight_eq_div_pow _ 3
  have hlarge : (req + 127 + (120 <<< 7)) >>> 7 = (req + 127 + 15360) / 128 :=
    Nat.shiftRight_eq_div_pow _ 7
  rw [idx_length, entryOf, hsmall, hlarge]
  split
  · refine ⟨by omega, ?_, fun hpos => ?_⟩
    · rw [entryTop, if_pos (by omega)]
      omega
    · rw [entryBelow, if_pos (by omega)]
      omega
  · refine ⟨by omega, ?_, fun hpos => ?_⟩
    · rw [entryTop, if_neg (by omega)]
      omega
    · rw [entryBelow, if_neg (by omega)]
      omega

/-- A small request is looked up in its entry of the index table. -/
theorem getSizeClass_entry {req : Nat} (h : req ≤ MAX_SIZE) :
    getSizeClass req = .base (IDX_ARRAY.getD (entryOf req) 0) := by
  rw [getSizeClass, entryOf, if_pos h]
  split <;> rfl

theorem getSizeClass_fits {req : Nat} (h : req ≤ MAX_SIZE) :
    ∃ idx, IDX_ARRAY[entryOf req]? = some idx ∧ getSizeClass req = .base idx ∧
      EntryFits idx (entryOf req) := by
  have hentry := List.getElem?_eq_getElem (entryOf_spec h).1
  refine ⟨_, hentry, ?_, entryFits_of_getElem? hentry⟩
  rw [getSizeClass_entry h, List.getD_eq_getElem?_getD, hentry]
  rfl

end TcSizeClass

theorem tcSizeClass_sound : tcSizeClass.Sound where
  size_pos idx hpos hlt := (TcSizeClass.classes_sound idx hlt hpos).1
  size_le idx hpos hlt := (TcSizeClass.classes_sound idx hlt hpos).2
  pages_le := getD_le_of_forall (by decide)

theorem tcSizeClass_rounds {size : Nat} (hpos : 1 ≤ size) (hle : size ≤ tcSizeClass.MAX_SIZE) :
    ∃ idx, tcSizeClass.Rounds size idx := by
  obtain ⟨idx, -, hclass, hlt, hidx, htop, -⟩ := TcSizeClass.getSizeClass_fits hle
  obtain ⟨-, hsize, -⟩ := TcSizeClass.entryOf_spec hle
  refine ⟨idx, hclass, hidx (Nat.pos_of_ne_zero fun hzero => ?_), hlt, hsize.trans htop⟩
  rw [hzero] at hsize
  exact absurd (hpos.trans hsize) (by decide)

end UniAlloc
