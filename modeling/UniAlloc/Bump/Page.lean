import UniAlloc.FreeList.Basic
import UniAlloc.Transition.Basic

/-!
# The page bump region

`freelist::BumpAlloc` hands out whole pages of one region. The default build goes down
from the end of a mapped region to its start, `check_point`, and maps another one when
the rest is too small. With a fixed heap it goes up from `current` to the end of the
region, `check_point`, which can be moved further up. Addresses are `usize` and wrap.
-/

namespace UniAlloc.PageBump

open FreeList (PG_SIZE BumpAlloc)

inductive AllocError where
  | ENOMEM
  | EFATAL
  deriving DecidableEq

inductive Build where
  | mapped
  | fixedHeap
  deriving DecidableEq

def wrappingAdd (x y : Nat) : Nat := (x + y) % 2 ^ 64

def wrappingSub (x y : Nat) : Nat := (2 ^ 64 + x - y) % 2 ^ 64

theorem wrappingSub_of_le {x y : Nat} (h : y ≤ x) (hx : x < 2 ^ 64) : wrappingSub x y = x - y := by
  rw [wrappingSub, Nat.add_sub_assoc h, Nat.add_mod_left, Nat.mod_eq_of_lt (by omega)]

def checkedSub (x y : Nat) : Option Nat := if y ≤ x then some (x - y) else none

def checkedAdd (x y : Nat) : Option Nat := if x + y < 2 ^ 64 then some (x + y) else none

/-- A region that `mmap` returned. The unused rest of the previous one is unmapped. -/
def init (start : Nat) : BumpAlloc := ⟨start, wrappingAdd start BumpAlloc.DEFAULT_SIZE⟩

def initWithRange (start finish : Nat) : BumpAlloc := ⟨finish, start⟩

def extendWithRange (bump : BumpAlloc) (size : Nat) : BumpAlloc :=
  { bump with checkPoint := wrappingAdd bump.checkPoint size }

/-- The size of a call rounded up to pages does not fit between `check_point` and `current`. -/
def Exhausted (bump : BumpAlloc) (size : Nat) : Prop :=
  bump.current < wrappingAdd bump.checkPoint (BumpAlloc.allocSize size)

instance (bump : BumpAlloc) (size : Nat) : Decidable (Exhausted bump size) :=
  inferInstanceAs (Decidable (_ < _))

/-- `alloc` of the default build; `start` is what `mmap` returns if it is called. -/
def allocMapped (bump : BumpAlloc) (size start : Nat) : BumpAlloc × Except AllocError Nat :=
  let bump := if Exhausted bump size then init start else bump
  match checkedSub bump.current (BumpAlloc.allocSize size) with
  | some newPtr => ({ bump with current := newPtr }, .ok newPtr)
  | none => (bump, .error .EFATAL)

/-- `alloc` with a fixed heap. -/
def allocFixed (bump : BumpAlloc) (size : Nat) : BumpAlloc × Except AllocError Nat :=
  if wrappingSub bump.checkPoint (BumpAlloc.allocSize size) < bump.current then
    (bump, .error .ENOMEM)
  else
    match checkedAdd bump.current (BumpAlloc.allocSize size) with
    | some newPtr => ({ bump with current := newPtr }, .ok bump.current)
    | none => (bump, .error .EFATAL)

/-- The allocator with the region it has reserved, from its start to its end, and the ranges it
has returned, each with its address and its bytes. -/
structure State where
  bump : BumpAlloc
  region : Nat × Nat
  returned : List (Nat × Nat)
  deriving DecidableEq

namespace State

/-- The call of `alloc`. -/
def call (s : State) : Build → Nat → Nat → BumpAlloc × Except AllocError Nat
  | .mapped, size, start => allocMapped s.bump size start
  | .fixedHeap, size, _ => allocFixed s.bump size

/-- The region reserved once the call has returned. -/
def regionAfter (s : State) : Build → Nat → Nat → Nat × Nat
  | .mapped, size, start =>
      if Exhausted s.bump size then (start, start + BumpAlloc.DEFAULT_SIZE) else s.region
  | .fixedHeap, _, _ => s.region

/-- The state once the call has returned. -/
def alloc (s : State) (b : Build) (size start : Nat) : State where
  bump := (s.call b size start).1
  region := s.regionAfter b size start
  returned :=
    match (s.call b size start).2 with
    | .ok p => (p, BumpAlloc.allocSize size) :: s.returned
    | .error _ => s.returned

def extend (s : State) (size : Nat) : State where
  bump := extendWithRange s.bump size
  region := (s.region.1, s.region.2 + size)
  returned := s.returned

end State

/-- Two ranges of addresses have no byte in common. -/
def Apart (r r' : Nat × Nat) : Prop := r.1 + r.2 ≤ r'.1 ∨ r'.1 + r'.2 ≤ r.1

instance (r r' : Nat × Nat) : Decidable (Apart r r') := inferInstanceAs (Decidable (_ ∨ _))

/-- `mmap` succeeds: a region in user space away from all that is in use. -/
structure Maps (returned : List (Nat × Nat)) (start : Nat) : Prop where
  pos : 0 < start
  bound : start + BumpAlloc.DEFAULT_SIZE ≤ 2 ^ 63
  fresh : ∀ r ∈ returned, Apart (start, BumpAlloc.DEFAULT_SIZE) r

/-- The calls that are made: sizes from `1` to `isize::MAX`. -/
structure Callable (s : State) (b : Build) (size start : Nat) : Prop where
  pos : 1 ≤ size
  bound : size < 2 ^ 63
  maps : b = .mapped → Maps s.returned start

/-- A range is returned only inside the region and away from all ranges returned before, and
a call that fails changes nothing. -/
def Safe (s : State) (b : Build) (size start : Nat) : Prop :=
  match s.call b size start with
  | (_, .ok p) =>
      (s.regionAfter b size start).1 ≤ p ∧
        p + BumpAlloc.allocSize size ≤ (s.regionAfter b size start).2 ∧
        ∀ r ∈ s.returned, Apart (p, BumpAlloc.allocSize size) r
  | (bump, .error _) => bump = s.bump

/-- The rounded size is at most a whole region, or, with a fixed heap, the end address. -/
def Fits (s : State) : Build → Nat → Prop
  | .mapped, size => BumpAlloc.allocSize size ≤ BumpAlloc.DEFAULT_SIZE
  | .fixedHeap, size => BumpAlloc.allocSize size ≤ s.bump.checkPoint

inductive Move where
  | alloc (size start : Nat)
  | extend (size : Nat)

/-- A call of `alloc`, or more memory behind a fixed heap. -/
inductive Step (b : Build) : State → Move → State → Prop where
  | alloc {s size start} : Callable s b size start → Step b s (.alloc size start)
      (s.alloc b size start)
  | extend {s size} : b = .fixedHeap → s.bump.checkPoint + size < 2 ^ 64 →
      Step b s (.extend size) (s.extend size)

/-- The steps in which the requested size fits. -/
def FittingStep (b : Build) (s : State) (m : Move) (t : State) : Prop :=
  Step b s m t ∧ ∀ size start, m = .alloc size start → Fits s b size

/-- The start: nothing mapped, or a fixed heap over a range. -/
inductive Starts : Build → State → Prop where
  | mapped : Starts .mapped ⟨BumpAlloc.new, (0, 0), []⟩
  | fixedHeap (start finish : Nat) : start ≤ finish → finish < 2 ^ 64 →
      Starts .fixedHeap ⟨initWithRange start finish, (start, finish), []⟩

/-- What is returned lies off the part of the region that is left. -/
inductive Inv : Build → State → Prop where
  | unmapped : Inv .mapped ⟨BumpAlloc.new, (0, 0), []⟩
  | mapped {s : State} (pos : 0 < s.bump.checkPoint)
      (bound : s.bump.checkPoint + BumpAlloc.DEFAULT_SIZE ≤ 2 ^ 63)
      (region : s.region = (s.bump.checkPoint, s.bump.checkPoint + BumpAlloc.DEFAULT_SIZE))
      (le : s.bump.checkPoint ≤ s.bump.current)
      (lt : s.bump.current < s.bump.checkPoint + BumpAlloc.DEFAULT_SIZE)
      (apart : ∀ r ∈ s.returned,
        Apart (s.bump.checkPoint, s.bump.current - s.bump.checkPoint) r) : Inv .mapped s
  | fixedHeap {s : State} (bound : s.bump.checkPoint < 2 ^ 64)
      (region : s.region.2 = s.bump.checkPoint) (start : s.region.1 ≤ s.bump.current)
      (le : s.bump.current ≤ s.bump.checkPoint)
      (apart : ∀ r ∈ s.returned, r.1 + r.2 ≤ s.bump.current) : Inv .fixedHeap s

theorem le_allocSize (size : Nat) : size ≤ BumpAlloc.allocSize size := by
  simp only [BumpAlloc.allocSize, PG_SIZE]
  omega

theorem allocSize_le {size : Nat} (h : size < 2 ^ 63) : BumpAlloc.allocSize size ≤ 2 ^ 63 := by
  simp only [BumpAlloc.allocSize, PG_SIZE]
  omega

theorem allocSize_pos {size : Nat} (h : 1 ≤ size) : 0 < BumpAlloc.allocSize size :=
  h.trans (le_allocSize size)

theorem checkedSub_of_le {x y : Nat} (h : y ≤ x) : checkedSub x y = some (x - y) := if_pos h

theorem checkedSub_of_lt {x y : Nat} (h : x < y) : checkedSub x y = none :=
  if_neg (Nat.not_le_of_lt h)

theorem checkedAdd_of_lt {x y : Nat} (h : x + y < 2 ^ 64) : checkedAdd x y = some (x + y) :=
  if_pos h

theorem init_eq {start : Nat} (h : start + BumpAlloc.DEFAULT_SIZE ≤ 2 ^ 63) :
    init start = ⟨start, start + BumpAlloc.DEFAULT_SIZE⟩ := by
  rw [init, wrappingAdd, Nat.mod_eq_of_lt (by omega)]

/-- Without a wrap the test of the default build compares the size with what is left. -/
theorem exhausted_iff {bump : BumpAlloc} {size : Nat} (hsize : size < 2 ^ 63)
    (hbump : bump.checkPoint < 2 ^ 63) :
    Exhausted bump size ↔ bump.current < bump.checkPoint + BumpAlloc.allocSize size := by
  have := allocSize_le hsize
  rw [Exhausted, wrappingAdd, Nat.mod_eq_of_lt (by omega)]

section

variable {b : Build} {s t : State} {m : Move} {size start : Nat}

/-- A request that a region can hold is cut off the end of what is left of the current one or,
if that is too small, of a new one. -/
theorem allocMapped_of_fits (hcall : Callable s .mapped size start)
    (hcheck : s.bump.checkPoint < 2 ^ 63) (hfits : Fits s .mapped size) :
    s.call .mapped size start =
      if Exhausted s.bump size then
        (⟨start, start + BumpAlloc.DEFAULT_SIZE - BumpAlloc.allocSize size⟩,
          .ok (start + BumpAlloc.DEFAULT_SIZE - BumpAlloc.allocSize size))
      else
        (⟨s.bump.checkPoint, s.bump.current - BumpAlloc.allocSize size⟩,
          .ok (s.bump.current - BumpAlloc.allocSize size)) := by
  have hinit := init_eq (hcall.maps rfl).bound
  have hfits : BumpAlloc.allocSize size ≤ BumpAlloc.DEFAULT_SIZE := hfits
  simp only [State.call, allocMapped, hinit]
  by_cases hexhausted : Exhausted s.bump size
  · simp only [if_pos hexhausted]
    rw [checkedSub_of_le (by omega)]
  · simp only [if_neg hexhausted]
    rw [exhausted_iff hcall.bound hcheck] at hexhausted
    rw [checkedSub_of_le (by omega)]

/-- A request over a whole region is cut off below it, or fails with a new region taken. -/
theorem allocMapped_of_not_fits (hcall : Callable s .mapped size start)
    (hcheck : s.bump.checkPoint < 2 ^ 63)
    (hbump : s.bump.current < s.bump.checkPoint + BumpAlloc.DEFAULT_SIZE)
    (hfits : ¬Fits s .mapped size) :
    Exhausted s.bump size ∧ s.call .mapped size start =
      if BumpAlloc.allocSize size ≤ start + BumpAlloc.DEFAULT_SIZE then
        (⟨start, start + BumpAlloc.DEFAULT_SIZE - BumpAlloc.allocSize size⟩,
          .ok (start + BumpAlloc.DEFAULT_SIZE - BumpAlloc.allocSize size))
      else (⟨start, start + BumpAlloc.DEFAULT_SIZE⟩, .error .EFATAL) := by
  have hfits : BumpAlloc.DEFAULT_SIZE < BumpAlloc.allocSize size := Nat.lt_of_not_le hfits
  have hexhausted : Exhausted s.bump size :=
    (exhausted_iff hcall.bound hcheck).mpr (by omega)
  refine ⟨hexhausted, ?_⟩
  simp only [State.call, allocMapped, if_pos hexhausted, init_eq (hcall.maps rfl).bound]
  by_cases hle : BumpAlloc.allocSize size ≤ start + BumpAlloc.DEFAULT_SIZE
  · rw [checkedSub_of_le hle, if_pos hle]
  · rw [checkedSub_of_lt (Nat.lt_of_not_le hle), if_neg hle]

/-- With a fixed heap a request below the end address is served exactly when it fits. -/
theorem allocFixed_of_fits (start : Nat) (hfits : Fits s .fixedHeap size)
    (hcheck : s.bump.checkPoint < 2 ^ 64) :
    s.call .fixedHeap size start =
      if s.bump.checkPoint < s.bump.current + BumpAlloc.allocSize size then
        (s.bump, .error .ENOMEM)
      else (⟨s.bump.checkPoint, s.bump.current + BumpAlloc.allocSize size⟩,
        .ok s.bump.current) := by
  have hfits : BumpAlloc.allocSize size ≤ s.bump.checkPoint := hfits
  have hsub : wrappingSub s.bump.checkPoint (BumpAlloc.allocSize size) =
      s.bump.checkPoint - BumpAlloc.allocSize size := by
    rw [wrappingSub, Nat.add_sub_assoc hfits, Nat.add_mod_left, Nat.mod_eq_of_lt (by omega)]
  rw [State.call, allocFixed, hsub]
  by_cases hlarge : s.bump.checkPoint < s.bump.current + BumpAlloc.allocSize size
  · rw [if_pos hlarge, if_pos (by omega)]
  · rw [if_neg hlarge, if_neg (by omega), checkedAdd_of_lt (by omega)]

/-- A request over the end address passes the test by wrap-around. -/
theorem allocFixed_of_not_fits (hcall : Callable s .fixedHeap size start)
    (hle : s.bump.current ≤ s.bump.checkPoint) (hfits : ¬Fits s .fixedHeap size) :
    s.call .fixedHeap size start =
      (⟨s.bump.checkPoint, s.bump.current + BumpAlloc.allocSize size⟩, .ok s.bump.current) := by
  have hfits : s.bump.checkPoint < BumpAlloc.allocSize size := Nat.lt_of_not_le hfits
  have hbound := allocSize_le hcall.bound
  have hsub : wrappingSub s.bump.checkPoint (BumpAlloc.allocSize size) =
      2 ^ 64 + s.bump.checkPoint - BumpAlloc.allocSize size := by
    rw [wrappingSub, Nat.mod_eq_of_lt (by omega)]
  rw [State.call, allocFixed, hsub, if_neg (by omega), checkedAdd_of_lt (by omega)]

theorem inv_start (h : Starts b s) : Inv b s := by
  cases h with
  | mapped => exact .unmapped
  | fixedHeap start finish hle hlt =>
      exact .fixedHeap hlt rfl le_rfl hle fun r hr => absurd hr List.not_mem_nil

/-- The shape of the invariant before a call of the default build, whether or not a region has
been mapped. -/
theorem Inv.bounds (h : Inv .mapped s) :
    s.bump.checkPoint + BumpAlloc.DEFAULT_SIZE ≤ 2 ^ 63 ∧ s.bump.checkPoint ≤ s.bump.current ∧
      s.bump.current < s.bump.checkPoint + BumpAlloc.DEFAULT_SIZE ∧
      (s.bump.checkPoint < s.bump.current → s.region =
        (s.bump.checkPoint, s.bump.checkPoint + BumpAlloc.DEFAULT_SIZE)) ∧
      ∀ r ∈ s.returned, Apart (s.bump.checkPoint, s.bump.current - s.bump.checkPoint) r := by
  cases h with
  | unmapped =>
      refine ⟨by decide, le_rfl, by decide, fun h => absurd h (Nat.lt_irrefl 0), ?_⟩
      exact fun r hr => absurd hr List.not_mem_nil
  | mapped pos bound region le lt apart => exact ⟨bound, le, lt, fun _ => region, apart⟩

/-- A fitting call of the default build is safe and keeps the invariant. -/
theorem Inv.allocMapped (h : Inv .mapped s) (hcall : Callable s .mapped size start)
    (hfits : Fits s .mapped size) :
    Safe s .mapped size start ∧ Inv .mapped (s.alloc .mapped size start) := by
  obtain ⟨hbound, hle, hlt, hregion, hapart⟩ := h.bounds
  obtain ⟨hpos, hmax, hfresh⟩ := hcall.maps rfl
  have hcut := allocSize_pos hcall.pos
  have hrun := allocMapped_of_fits hcall (by omega) hfits
  have hfits : BumpAlloc.allocSize size ≤ BumpAlloc.DEFAULT_SIZE := hfits
  by_cases hexhausted : Exhausted s.bump size
  · rw [if_pos hexhausted] at hrun
    have hafter : s.regionAfter .mapped size start =
        (start, start + BumpAlloc.DEFAULT_SIZE) := if_pos hexhausted
    constructor
    · simp only [Safe, hrun, hafter]
      refine ⟨by omega, by omega, fun r hr => ?_⟩
      have := hfresh r hr
      simp only [Apart] at this ⊢
      omega
    · refine .mapped ?_ ?_ ?_ ?_ ?_ ?_ <;> simp only [State.alloc, hrun, hafter]
      · exact hpos
      · exact hmax
      · omega
      · omega
      · intro r hr
        obtain rfl | hr := List.mem_cons.mp hr
        · left
          simp only
          omega
        · have := hfresh r hr
          simp only [Apart] at this ⊢
          omega
  · rw [if_neg hexhausted] at hrun
    have hafter : s.regionAfter .mapped size start = s.region := if_neg hexhausted
    rw [exhausted_iff hcall.bound (by omega)] at hexhausted
    rw [hregion (by omega)] at hafter
    constructor
    · simp only [Safe, hrun, hafter]
      refine ⟨by omega, by omega, fun r hr => ?_⟩
      have := hapart r hr
      simp only [Apart] at this ⊢
      omega
    · refine .mapped ?_ ?_ ?_ ?_ ?_ ?_ <;> simp only [State.alloc, hrun, hafter]
      · cases h with
        | unmapped => simp only [BumpAlloc.new] at hexhausted; omega
        | mapped pos => exact pos
      · exact hbound
      · omega
      · omega
      · intro r hr
        obtain rfl | hr := List.mem_cons.mp hr
        · left
          simp only
          omega
        · have := hapart r hr
          simp only [Apart] at this ⊢
          omega

/-- A fitting call with a fixed heap is safe and keeps the invariant. -/
theorem Inv.allocFixed (h : Inv .fixedHeap s) (hfits : Fits s .fixedHeap size) :
    Safe s .fixedHeap size start ∧ Inv .fixedHeap (s.alloc .fixedHeap size start) := by
  cases h with
  | fixedHeap bound region hstart le apart =>
      have hrun := allocFixed_of_fits start hfits bound
      have hafter : s.regionAfter .fixedHeap size start = s.region := rfl
      by_cases hlarge : s.bump.checkPoint < s.bump.current + BumpAlloc.allocSize size
      · rw [if_pos hlarge] at hrun
        constructor
        · simp only [Safe, hrun]
        · refine .fixedHeap ?_ ?_ ?_ ?_ ?_ <;> simp only [State.alloc, hrun, hafter]
          · exact bound
          · exact region
          · exact hstart
          · exact le
          · exact apart
      · rw [if_neg hlarge] at hrun
        constructor
        · simp only [Safe, hrun, hafter]
          exact ⟨hstart, by omega, fun r hr => .inr (apart r hr)⟩
        · refine .fixedHeap ?_ ?_ ?_ ?_ ?_ <;> simp only [State.alloc, hrun, hafter]
          · exact bound
          · exact region
          · omega
          · omega
          · intro r hr
            obtain rfl | hr := List.mem_cons.mp hr
            · exact le_rfl
            · exact (apart r hr).trans (Nat.le_add_right _ _)

theorem Inv.alloc (h : Inv b s) (hcall : Callable s b size start) (hfits : Fits s b size) :
    Safe s b size start ∧ Inv b (s.alloc b size start) := by
  cases b with
  | mapped => exact h.allocMapped hcall hfits
  | fixedHeap => exact h.allocFixed hfits

theorem Inv.step (h : Inv b s) (hstep : FittingStep b s m t) : Inv b t := by
  obtain ⟨hstep, hfits⟩ := hstep
  cases hstep with
  | alloc hcall => exact (h.alloc hcall (hfits _ _ rfl)).2
  | extend hb hsize =>
      subst hb
      cases h with
      | fixedHeap bound region start le apart =>
          have hcheck := Nat.mod_eq_of_lt hsize
          refine .fixedHeap ?_ ?_ ?_ ?_ ?_ <;> 
            simp only [State.extend, extendWithRange, wrappingAdd, hcheck]
          · exact hsize
          · rw [region]
          · exact start
          · omega
          · exact apart

/-- A call that does not fit is never safe. -/
theorem Inv.not_safe (h : Inv b s) (hcall : Callable s b size start) (hfits : ¬Fits s b size) :
    ¬Safe s b size start := by
  cases b with
  | mapped =>
      obtain ⟨hbound, hle, hlt, -, -⟩ := h.bounds
      have hmax := (hcall.maps rfl).bound
      obtain ⟨hexhausted, hrun⟩ := allocMapped_of_not_fits hcall (by omega) hlt hfits
      have hfits : BumpAlloc.DEFAULT_SIZE < BumpAlloc.allocSize size := Nat.lt_of_not_le hfits
      have hafter : s.regionAfter .mapped size start =
          (start, start + BumpAlloc.DEFAULT_SIZE) := if_pos hexhausted
      by_cases hroom : BumpAlloc.allocSize size ≤ start + BumpAlloc.DEFAULT_SIZE
      · rw [if_pos hroom] at hrun
        simp only [Safe, hrun, hafter]
        rintro ⟨hge, -⟩
        omega
      · rw [if_neg hroom] at hrun
        simp only [Safe, hrun]
        intro hsame
        rw [← hsame] at hlt
        exact Nat.lt_irrefl _ hlt
  | fixedHeap =>
      cases h with
      | fixedHeap bound region hstart le apart =>
          have hrun := allocFixed_of_not_fits hcall le hfits
          have hfits : s.bump.checkPoint < BumpAlloc.allocSize size := Nat.lt_of_not_le hfits
          have hafter : s.regionAfter .fixedHeap size start = s.region := rfl
          simp only [Safe, hrun, hafter]
          rintro ⟨-, hin, -⟩
          omega

/-- In every run whose requests fit, the next call is safe exactly when it fits too. -/
theorem alloc_safe_iff (h : Transition.Reachable (Starts b) (FittingStep b) s)
    (hcall : Callable s b size start) : Safe s b size start ↔ Fits s b size := by
  have hinv : Inv b s :=
    h.invariant (fun _ => inv_start) fun u m v hu hstep => hu.step hstep
  constructor
  · intro hsafe
    by_contra hfits
    exact hinv.not_safe hcall hfits hsafe
  · exact fun hfits => (hinv.alloc hcall hfits).1

end

/-- Two regions, of which the second one is used up. -/
def twoRegions : State :=
  (State.alloc ⟨BumpAlloc.new, (0, 0), []⟩ .mapped 1 0x7f0000000000).alloc .mapped 0xffffffff
    0x7e0000000000

/-- A fixed heap of one page that has been made longer by two. -/
def extended : State :=
  (State.alloc ⟨initWithRange 0xffff800000100000 0xffff800000101000,
    (0xffff800000100000, 0xffff800000101000), []⟩ .fixedHeap 4096 0).extend 0x2000

theorem alloc_safe_iff_twoRegions :
    (Safe twoRegions .mapped 8192 0x7d0000000000 ↔ Fits twoRegions .mapped 8192) ∧
    (Safe extended .fixedHeap 8192 0 ↔ Fits extended .fixedHeap 8192) := by
  have hmaps : Maps [] 0x7f0000000000 :=
    ⟨by decide, by decide, fun r hr => absurd hr List.not_mem_nil⟩
  have hpage : BumpAlloc.allocSize 1 ≤ BumpAlloc.DEFAULT_SIZE := by decide
  have hregion : BumpAlloc.allocSize 0xffffffff ≤ BumpAlloc.DEFAULT_SIZE := by decide
  have hheap : BumpAlloc.allocSize 4096 ≤ 0xffff800000101000 := by decide
  constructor
  · have r : Transition.Run (FittingStep .mapped) ⟨BumpAlloc.new, (0, 0), []⟩ [] _ := .nil
    have r := r.snoc ⟨@Step.alloc _ _ 1 0x7f0000000000 ⟨by decide, by decide, fun _ => hmaps⟩,
      fun _ _ h => by cases h; exact hpage⟩
    have r := r.snoc ⟨@Step.alloc _ _ 0xffffffff 0x7e0000000000 ⟨by decide, by decide, fun _ =>
      ⟨by decide, by decide, by decide⟩⟩, fun _ _ h => by cases h; exact hregion⟩
    exact alloc_safe_iff ⟨_, _, .mapped, r⟩
      ⟨by decide, by decide, fun _ => ⟨by decide, by decide, by decide⟩⟩
  · have r : Transition.Run (FittingStep .fixedHeap)
      ⟨initWithRange 0xffff800000100000 0xffff800000101000,
        (0xffff800000100000, 0xffff800000101000), []⟩ [] _ := .nil
    have r := r.snoc ⟨@Step.alloc _ _ 4096 0 ⟨by decide, by decide, fun h => Build.noConfusion h⟩,
      fun _ _ h => by cases h; exact hheap⟩
    have r := r.snoc ⟨@Step.extend _ _ 0x2000 rfl (by decide), nofun⟩
    exact alloc_safe_iff ⟨_, _, .fixedHeap _ _ (by decide) (by decide), r⟩
      ⟨by decide, by decide, fun h => Build.noConfusion h⟩

/-- Four gigabytes and a page begin below the region that was mapped for them, and with a fixed
heap of a megabyte at address `0x100000` three megabytes are handed out. -/
theorem oversized_range_returned :
    (∃ s size start, Starts .mapped s ∧ Callable s .mapped size start ∧
      ¬Safe s .mapped size start) ∧
    ∃ s size start, Starts .fixedHeap s ∧ Callable s .fixedHeap size start ∧
      ¬Safe s .fixedHeap size start := by
  have hbelow : BumpAlloc.allocSize 0x100001000 = 0x100001000 := rfl
  have habove : BumpAlloc.allocSize 0x300000 = 0x300000 := rfl
  have hmaps : Maps [] 0x7f0000000000 :=
    ⟨by decide, by decide, fun r hr => absurd hr List.not_mem_nil⟩
  constructor
  · refine ⟨_, 0x100001000, 0x7f0000000000, .mapped, ⟨by decide, by decide, fun _ => hmaps⟩, ?_⟩
    simp [Safe, State.call, State.regionAfter, allocMapped, Exhausted, init, wrappingAdd,
      checkedSub, BumpAlloc.new, BumpAlloc.DEFAULT_SIZE, hbelow]
  · refine ⟨_, 0x300000, 0, .fixedHeap 0x100000 0x200000 (by decide) (by decide),
      ⟨by decide, by decide, fun h => Build.noConfusion h⟩, ?_⟩
    simp [Safe, State.call, State.regionAfter, allocFixed, initWithRange, wrappingSub, checkedAdd,
      habove]

/-- The allocator under the page backend is the one of the default build: for requests that fit
it behaves as `FreeList` takes it to. -/
theorem alloc_eq_call {s : State} {size start : Nat} (hcall : Callable s .mapped size start)
    (hcheck : s.bump.checkPoint < 2 ^ 63) (hfits : Fits s .mapped size) :
    (s.bump.alloc size start).1 = (s.call .mapped size start).1 ∧
      ∃ p, (s.bump.alloc size start).2 = .ok p ∧ (s.call .mapped size start).2 = .ok p := by
  have hmax := (hcall.maps rfl).bound
  have hfits' : BumpAlloc.allocSize size ≤ BumpAlloc.DEFAULT_SIZE := hfits
  have hstart : start ≠ 2 ^ 64 - 1 := by omega
  have hinit : BumpAlloc.init start = ⟨start, start + BumpAlloc.DEFAULT_SIZE⟩ := by
    rw [BumpAlloc.init, if_neg hstart]
  have hexhausted : s.bump.Exhausted size ↔ Exhausted s.bump size :=
    (exhausted_iff hcall.bound hcheck).symm
  rw [allocMapped_of_fits hcall hcheck hfits]
  by_cases h : Exhausted s.bump size
  · simp only [BumpAlloc.alloc, hexhausted, if_pos h, hinit]
    rw [if_pos (by omega)]
    exact ⟨rfl, _, rfl, rfl⟩
  · simp only [BumpAlloc.alloc, hexhausted, if_neg h]
    rw [exhausted_iff hcall.bound hcheck] at h
    rw [if_pos (by omega)]
    exact ⟨rfl, _, rfl, rfl⟩

end UniAlloc.PageBump
