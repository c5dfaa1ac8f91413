import UniAlloc.Bump.Page
import UniAlloc.Slab.Basic

/-!
# The bump allocator of page descriptors

`PageBumpAlloc` cuts descriptors off the end of a region. It takes a new region when
nothing is left or when the region is wider than `DEFAULT_SIZE`, and it does not ask
whether the rest still holds a descriptor. The region is mapped in the default build;
with a fixed heap it is a range it was given, or a page of the backend.
-/

namespace UniAlloc.DescBump

open Slab (PageBumpAlloc OBJECT_PAGE_SIZE)
open PageBump (wrappingAdd wrappingSub wrappingSub_of_le Apart)

/-- The features that matter here. -/
structure Build where
  fixedHeap : Bool
  hugepage : Bool
  deriving DecidableEq

namespace Build

variable (b : Build)

def DEFAULT_SIZE : Nat := OBJECT_PAGE_SIZE * if b.hugepage then 1 <<< 21 else Slab.PAGE_SIZE

/-- The bytes of a new region. -/
def refillSize : Nat := if b.fixedHeap then 4096 else b.DEFAULT_SIZE

end Build

/-- The next allocation takes a new region. -/
def Exhausted (b : Build) (bump : PageBumpAlloc) : Prop :=
  bump.current ≤ bump.start ∨ b.DEFAULT_SIZE < bump.current - bump.start

instance (b : Build) (bump : PageBumpAlloc) : Decidable (Exhausted b bump) :=
  inferInstanceAs (Decidable (_ ∨ _))

/-- A region that `mmap` or the backend returned, null if there is none to be had. -/
def refill (b : Build) (start : Nat) : PageBumpAlloc := ⟨start, wrappingAdd start b.refillSize⟩

/-- `alloc` of a descriptor; `start` is the new region if one is taken. -/
def alloc (b : Build) (bump : PageBumpAlloc) (start : Nat) : PageBumpAlloc × Nat :=
  let bump := if Exhausted b bump then refill b start else bump
  let newCur := wrappingSub bump.current OBJECT_PAGE_SIZE
  ({ bump with current := newCur }, newCur)

def initWithRange (start finish : Nat) : PageBumpAlloc := ⟨start, finish⟩

/-- `start & !(page_size - 1)`. -/
def alignDown (start pageSize : Nat) : Nat := start &&& (2 ^ 64 - pageSize)

/-- `Err(())` is `none`. -/
def tryExtend (bump : PageBumpAlloc) (start finish pageSize : Nat) : Option PageBumpAlloc :=
  if finish = bump.start then some { bump with start := alignDown start pageSize } else none

/-- The allocator with the region it carves from, from its start to its end, and the
descriptors it has returned. -/
structure State where
  bump : PageBumpAlloc
  region : Nat × Nat
  returned : List Nat
  deriving DecidableEq

namespace State

def new : State := ⟨PageBumpAlloc.new, (0, 0), []⟩

variable (s : State) (b : Build)

/-- The region that a call carves from. A null pointer is no region. -/
def regionAfter (start : Nat) : Nat × Nat :=
  if Exhausted b s.bump then if start = 0 then (0, 0) else (start, start + b.refillSize)
  else s.region

/-- The state once the call has returned. -/
def alloc (start : Nat) : State where
  bump := (DescBump.alloc b s.bump start).1
  region := s.regionAfter b start
  returned := (DescBump.alloc b s.bump start).2 :: s.returned

def initWithRange (start finish : Nat) : State where
  bump := DescBump.initWithRange start finish
  region := (start, finish)
  returned := s.returned

/-- A range that is accepted lies below `start`. It is part of the region if nothing lies
between them. -/
def tryExtend (start finish pageSize : Nat) : State :=
  match DescBump.tryExtend s.bump start finish pageSize with
  | some bump =>
      { s with bump, region := (if s.bump.start = s.region.1 then start else s.region.1, s.region.2) }
  | none => s

end State

/-- A range of `size` bytes that no returned descriptor reaches into. -/
def Unused (returned : List Nat) (start size : Nat) : Prop :=
  ∀ r ∈ returned, Apart (start, size) (r, OBJECT_PAGE_SIZE)

instance (returned : List Nat) (start size : Nat) : Decidable (Unused returned start size) :=
  inferInstanceAs (Decidable (∀ r ∈ returned, _))

/-- What `mmap` or the backend can return: a null pointer, or memory that is not in use. -/
def Supplied (b : Build) (s : State) (start : Nat) : Prop :=
  start = 0 ∨ start + b.refillSize < 2 ^ 64 ∧ Unused s.returned start b.refillSize

instance (b : Build) (s : State) (start : Nat) : Decidable (Supplied b s start) :=
  inferInstanceAs (Decidable (_ ∨ _))

inductive Move where
  | alloc (start : Nat)
  | initWithRange (start finish : Nat)
  | tryExtend (start finish pageSize : Nat)

/-- A call of `alloc`, or memory given to a fixed heap. -/
inductive Step (b : Build) : State → Move → State → Prop where
  | alloc {s start} : (Exhausted b s.bump → Supplied b s start) →
      Step b s (.alloc start) (s.alloc b start)
  | initWithRange {s start finish} : b.fixedHeap = true → start ≤ finish → finish < 2 ^ 64 →
      Unused s.returned start (finish - start) →
      Step b s (.initWithRange start finish) (s.initWithRange start finish)
  | tryExtend {s start finish pageSize} : b.fixedHeap = true → start ≤ finish →
      Unused s.returned start (finish - start) →
      Step b s (.tryExtend start finish pageSize) (s.tryExtend start finish pageSize)

/-- The descriptor lies in the region that it is carved from, and off all others. -/
def Safe (b : Build) (s : State) (start : Nat) : Prop :=
  (s.regionAfter b start).1 ≤ (alloc b s.bump start).2 ∧
    (alloc b s.bump start).2 + OBJECT_PAGE_SIZE ≤ (s.regionAfter b start).2 ∧
    Unused s.returned (alloc b s.bump start).2 OBJECT_PAGE_SIZE

instance (b : Build) (s : State) (start : Nat) : Decidable (Safe b s start) :=
  inferInstanceAs (Decidable (_ ∧ _ ∧ _))

/-- A new region that is needed can be had; with a fixed heap, the rest of a region that is
not used up holds a descriptor. -/
def Fits (b : Build) (s : State) (start : Nat) : Prop :=
  if Exhausted b s.bump then start ≠ 0
  else b.fixedHeap = true → s.region.1 + OBJECT_PAGE_SIZE ≤ s.bump.current

instance (b : Build) (s : State) (start : Nat) : Decidable (Fits b s start) :=
  inferInstanceAs (Decidable (if Exhausted b s.bump then start ≠ 0
    else b.fixedHeap = true → s.region.1 + OBJECT_PAGE_SIZE ≤ s.bump.current))

/-- The steps in which the descriptor fits. -/
def FittingStep (b : Build) (s : State) (m : Move) (t : State) : Prop :=
  Step b s m t ∧ ∀ start, m = .alloc start → Fits b s start

/-- The rest of the region is in no descriptor. In the default build it is a whole number
of descriptors. -/
structure Inv (b : Build) (s : State) : Prop where
  start : s.bump.start ≤ s.region.1
  rest : s.region.1 ≤ s.bump.current
  current : s.bump.current ≤ s.region.2
  bound : s.region.2 < 2 ^ 64
  unused : Unused s.returned s.region.1 (s.bump.current - s.region.1)
  whole : b.fixedHeap = false →
    s.bump.start = s.region.1 ∧ OBJECT_PAGE_SIZE ∣ s.bump.current - s.bump.start

theorem inv_new (b : Build) : Inv b State.new :=
  ⟨le_rfl, le_rfl, le_rfl, by decide, fun _ hr => absurd hr List.not_mem_nil,
    fun _ => ⟨rfl, Nat.dvd_zero _⟩⟩

theorem object_page_size_le_refillSize (b : Build) : OBJECT_PAGE_SIZE ≤ b.refillSize := by
  obtain ⟨fixedHeap, hugepage⟩ := b
  cases fixedHeap <;> cases hugepage <;> decide

variable {b : Build} {s t : State} {m : Move} {start : Nat}

/-- A descriptor cut off a rest that holds it. -/
theorem unused_cut {returned : List Nat} {low cur : Nat} (hroom : low + OBJECT_PAGE_SIZE ≤ cur)
    (unused : Unused returned low (cur - low)) :
    Unused returned (cur - OBJECT_PAGE_SIZE) OBJECT_PAGE_SIZE ∧
      Unused ((cur - OBJECT_PAGE_SIZE) :: returned) low (cur - OBJECT_PAGE_SIZE - low) := by
  simp only [Unused, Apart, OBJECT_PAGE_SIZE] at *
  refine ⟨fun r hr => ?_, List.forall_mem_cons.mpr ⟨?_, fun r hr => ?_⟩⟩
  · have := unused r hr
    omega
  · omega
  · have := unused r hr
    omega

theorem alloc_of_exhausted {bump : PageBumpAlloc} (h : Exhausted b bump)
    (hmax : start + b.refillSize < 2 ^ 64) :
    alloc b bump start = (⟨start, start + b.refillSize - OBJECT_PAGE_SIZE⟩,
      start + b.refillSize - OBJECT_PAGE_SIZE) := by
  have hend : wrappingAdd start b.refillSize = start + b.refillSize := by
    rw [wrappingAdd, Nat.mod_eq_of_lt hmax]
  simp only [alloc, if_pos h, refill, hend,
    wrappingSub_of_le ((object_page_size_le_refillSize b).trans (Nat.le_add_left _ _)) hmax]

theorem alloc_of_left {bump : PageBumpAlloc} (start : Nat) (left : ¬Exhausted b bump)
    (hcur : bump.current < 2 ^ 64) (hroom : OBJECT_PAGE_SIZE ≤ bump.current) :
    alloc b bump start = (⟨bump.start, bump.current - OBJECT_PAGE_SIZE⟩,
      bump.current - OBJECT_PAGE_SIZE) := by
  simp only [alloc, if_neg left, wrappingSub_of_le hroom hcur]

/-- What is left of the region holds another descriptor, in every state of the default build
that is not used up. -/
theorem Inv.room (h : Inv b s) (left : ¬Exhausted b s.bump)
    (hfits : b.fixedHeap = true → s.region.1 + OBJECT_PAGE_SIZE ≤ s.bump.current) :
    s.region.1 + OBJECT_PAGE_SIZE ≤ s.bump.current := by
  cases hb : b.fixedHeap with
  | true => exact hfits hb
  | false =>
      obtain ⟨hstart, hwhole⟩ := h.whole hb
      have hlt : s.bump.start < s.bump.current := Nat.lt_of_not_le fun hle => left (.inl hle)
      have := Nat.le_of_dvd (by omega) hwhole
      omega

/-- A fitting call is safe and keeps the invariant. -/
theorem Inv.alloc (h : Inv b s) (supplied : Exhausted b s.bump → Supplied b s start)
    (hfits : Fits b s start) : Safe b s start ∧ Inv b (s.alloc b start) := by
  by_cases hexhausted : Exhausted b s.bump
  · rw [Fits, if_pos hexhausted] at hfits
    obtain hzero | ⟨hmax, unused⟩ := supplied hexhausted
    · exact absurd hzero hfits
    have hsize := object_page_size_le_refillSize b
    have hregion : s.regionAfter b start = (start, start + b.refillSize) := by
      rw [State.regionAfter, if_pos hexhausted, if_neg hfits]
    have hcall := alloc_of_exhausted hexhausted hmax
    have hroom : start + OBJECT_PAGE_SIZE ≤ start + b.refillSize := by omega
    obtain ⟨hcut, hrest⟩ := unused_cut hroom (by rwa [Nat.add_sub_cancel_left])
    refine ⟨?_, ?_⟩
    · simp only [Safe, hcall, hregion]
      exact ⟨by omega, by omega, hcut⟩
    · refine ⟨?_, ?_, ?_, ?_, ?_, fun hb => ?_⟩ <;> simp only [State.alloc, hcall, hregion]
      · exact le_rfl
      · omega
      · omega
      · exact hmax
      · exact hrest
      · rw [Nat.add_sub_assoc hsize, Nat.add_sub_cancel_left]
        refine ⟨trivial, Nat.dvd_sub ?_ dvd_rfl⟩
        rw [Build.refillSize, hb]
        exact Nat.dvd_mul_right _ _
  · rw [Fits, if_neg hexhausted] at hfits
    have hroom := h.room hexhausted hfits
    have hcur : s.bump.current < 2 ^ 64 := h.current.trans_lt h.bound
    have hregion : s.regionAfter b start = s.region := if_neg hexhausted
    have hcall := alloc_of_left start hexhausted hcur ((Nat.le_add_left _ _).trans hroom)
    obtain ⟨hcut, hrest⟩ := unused_cut hroom h.unused
    have hend := h.current
    refine ⟨?_, ?_⟩
    · simp only [Safe, hcall, hregion]
      exact ⟨by omega, by omega, hcut⟩
    · refine ⟨?_, ?_, ?_, ?_, ?_, fun hb => ?_⟩ <;> simp only [State.alloc, hcall, hregion]
      · exact h.start
      · omega
      · omega
      · exact h.bound
      · exact hrest
      · obtain ⟨hstart, hwhole⟩ := h.whole hb
        refine ⟨hstart, ?_⟩
        rw [Nat.sub_right_comm]
        exact Nat.dvd_sub hwhole dvd_rfl

/-- A range directly below the rest of the region. -/
theorem unused_append {returned : List Nat} {start low cur : Nat} (hlow : start ≤ low)
    (hcur : low ≤ cur) (below : Unused returned start (low - start))
    (unused : Unused returned low (cur - low)) : Unused returned start (cur - start) := by
  intro r hr
  have h₁ := below r hr
  have h₂ := unused r hr
  simp only [Apart, OBJECT_PAGE_SIZE] at *
  omega

theorem Inv.step (h : Inv b s) (hstep : FittingStep b s m t) : Inv b t := by
  obtain ⟨hstep, hfits⟩ := hstep
  cases hstep with
  | alloc supplied => exact (h.alloc supplied (hfits _ rfl)).2
  | initWithRange hb hle hmax unused =>
      exact ⟨le_rfl, hle, le_rfl, hmax, unused, fun hb' => by simp [hb] at hb'⟩
  | @tryExtend start finish pageSize hb hle unused =>
      rw [State.tryExtend, DescBump.tryExtend]
      split
      · next bump hcall =>
          obtain ⟨hend, hcall⟩ := Option.ite_none_right_eq_some.mp hcall
          obtain rfl := Option.some.inj hcall
          subst hend
          have hdown : alignDown start pageSize ≤ start := Nat.and_le_left
          have hstart := h.start
          have hrest := h.rest
          refine ⟨?_, ?_, h.current, h.bound, ?_, fun hb' => by simp [hb] at hb'⟩
          · show alignDown start pageSize ≤ ite _ _ _
            split <;> omega
          · show ite _ _ _ ≤ s.bump.current
            split <;> omega
          · show Unused s.returned (ite _ _ _) (s.bump.current - ite _ _ _)
            split
            · next hsame => exact unused_append (hsame ▸ hle) hrest (hsame ▸ unused) h.unused
            · exact h.unused
      · exact h

/-- A call that does not fit is never safe. -/
theorem Inv.not_safe (h : Inv b s) (hfits : ¬Fits b s start) : ¬Safe b s start := by
  rintro ⟨hlow, hhigh, -⟩
  by_cases hexhausted : Exhausted b s.bump
  · rw [Fits, if_pos hexhausted, not_not] at hfits
    rw [State.regionAfter, if_pos hexhausted, if_pos hfits] at hhigh
    simp [OBJECT_PAGE_SIZE] at hhigh
  · rw [Fits, if_neg hexhausted] at hfits
    have hshort : s.bump.current < s.region.1 + OBJECT_PAGE_SIZE :=
      Nat.lt_of_not_le fun hroom => hfits fun _ => hroom
    have hcall : (DescBump.alloc b s.bump start).2 =
        wrappingSub s.bump.current OBJECT_PAGE_SIZE := by
      simp only [DescBump.alloc, if_neg hexhausted]
    have hcur : s.bump.current < 2 ^ 64 := h.current.trans_lt h.bound
    have hbound := h.bound
    rw [State.regionAfter, if_neg hexhausted, hcall] at hlow hhigh
    obtain hle | hlt := Nat.lt_or_ge s.bump.current OBJECT_PAGE_SIZE
    · -- the subtraction wraps to the end of the address space
      have hwrap : wrappingSub s.bump.current OBJECT_PAGE_SIZE =
          2 ^ 64 + s.bump.current - OBJECT_PAGE_SIZE := by
        rw [wrappingSub, Nat.mod_eq_of_lt (by omega)]
      simp only [hwrap] at hhigh
      omega
    · rw [wrappingSub_of_le hlt hcur] at hlow
      omega

/-- In every run whose descriptors fit, the next one is safe exactly when it fits too. -/
theorem desc_safe_iff (h : Transition.Reachable (· = State.new) (FittingStep b) s)
    (supplied : Exhausted b s.bump → Supplied b s start) : Safe b s start ↔ Fits b s start := by
  have inv : Inv b s :=
    h.invariant (fun _ hs => hs ▸ inv_new b) fun u m v hu hstep => hu.step hstep
  constructor
  · intro hsafe
    by_contra hfits
    exact inv.not_safe hfits hsafe
  · exact fun hfits => (inv.alloc supplied hfits).1

/-- Two descriptors of the default build. -/
def carved : State :=
  (State.new.alloc ⟨false, false⟩ 0x7f0000000000).alloc ⟨false, false⟩ 0

/-- A fixed heap with a descriptor, whose region has been extended downwards. -/
def extended : State :=
  ((State.new.initWithRange 0xffff800000101000 0xffff800000102000).alloc ⟨true, false⟩ 0).tryExtend
    0xffff800000100000 0xffff800000101000 4096

theorem desc_safe_iff_carved :
    (Safe ⟨false, false⟩ carved 0 ↔ Fits ⟨false, false⟩ carved 0) ∧
      (Safe ⟨true, false⟩ extended 0 ↔ Fits ⟨true, false⟩ extended 0) := by
  have hunused : ∀ start size, Unused [] start size := fun _ _ r hr => absurd hr List.not_mem_nil
  constructor
  · have r : Transition.Run (FittingStep ⟨false, false⟩) State.new [] _ := .nil
    have r := r.snoc ⟨@Step.alloc _ _ 0x7f0000000000 fun _ => .inr ⟨by decide, hunused _ _⟩,
      fun _ h => by cases h; decide⟩
    have r := r.snoc ⟨@Step.alloc _ _ 0 fun h => absurd h (by decide),
      fun _ h => by cases h; decide⟩
    exact desc_safe_iff ⟨_, _, rfl, r⟩ fun h => absurd h (by decide)
  · have r : Transition.Run (FittingStep ⟨true, false⟩) State.new [] _ := .nil
    have r := r.snoc ⟨@Step.initWithRange _ _ 0xffff800000101000 0xffff800000102000 rfl (by decide)
      (by decide) (hunused _ _), nofun⟩
    have r := r.snoc ⟨@Step.alloc _ _ 0 fun h => absurd h (by decide),
      fun _ h => by cases h; decide⟩
    have r := r.snoc ⟨@Step.tryExtend _ _ 0xffff800000100000 0xffff800000101000 4096 rfl (by decide)
      (by decide), nofun⟩
    exact desc_safe_iff ⟨_, _, rfl, r⟩ fun h => absurd h (by decide)

/-- `n` descriptors are cut off a region that holds them. -/
theorem run_carved (n : Nat) (hroom : s.bump.start + OBJECT_PAGE_SIZE * n ≤ s.bump.current)
    (hwide : s.bump.current - s.bump.start ≤ b.DEFAULT_SIZE) (hcur : s.bump.current < 2 ^ 64) :
    ∃ tr t, Transition.Run (Step b) s tr t ∧
      t.bump = ⟨s.bump.start, s.bump.current - OBJECT_PAGE_SIZE * n⟩ ∧ t.region = s.region := by
  induction n with
  | zero => exact ⟨[], s, .nil, rfl, rfl⟩
  | succ n ih =>
      simp only [OBJECT_PAGE_SIZE] at ih hroom ⊢
      obtain ⟨tr, u, run, hbump, hregion⟩ := ih (by omega)
      have left : ¬Exhausted b u.bump := by
        simp only [Exhausted, hbump]
        omega
      have next : Step b u (.alloc 0) (u.alloc b 0) :=
        .alloc fun hexhausted => absurd hexhausted left
      refine ⟨_, _, run.snoc next, ?_, ?_⟩
      · rw [hbump] at left
        rw [State.alloc, hbump, alloc_of_left 0 left ((Nat.sub_le _ _).trans_lt hcur)
          (by simp only [OBJECT_PAGE_SIZE]; omega)]
        simp only [OBJECT_PAGE_SIZE, Nat.sub_sub]
        rfl
      · rw [← hregion]
        exact if_neg left

/-- A page of the backend holds `102` descriptors. The next one begins below the page. -/
theorem page_overrun :
    ∃ s, Transition.Reachable (· = State.new) (Step ⟨true, false⟩) s ∧
      (Exhausted ⟨true, false⟩ s.bump → Supplied ⟨true, false⟩ s 0) ∧
      s.region = (0x100000, 0x101000) ∧ (alloc ⟨true, false⟩ s.bump 0).2 = 0xfffe8 ∧
      ¬Safe ⟨true, false⟩ s 0 := by
  have first : Step ⟨true, false⟩ State.new (.alloc 0x100000)
      (State.new.alloc ⟨true, false⟩ 0x100000) :=
    .alloc fun _ => .inr ⟨by decide, fun r hr => absurd hr List.not_mem_nil⟩
  have hbump : (State.new.alloc ⟨true, false⟩ 0x100000).bump = ⟨0x100000, 0x100fd8⟩ := by decide
  obtain ⟨tr, s, run, hs, hregion⟩ := run_carved (b := ⟨true, false⟩)
    (s := State.new.alloc ⟨true, false⟩ 0x100000) 101
    (by rw [hbump]; decide) (by rw [hbump]; decide) (by rw [hbump]; decide)
  have hs : s.bump = ⟨0x100000, 0x100010⟩ := hs.trans (by rw [hbump]; rfl)
  have left : ¬Exhausted ⟨true, false⟩ s.bump := by rw [hs]; decide
  have hcall : (alloc ⟨true, false⟩ s.bump 0).2 = 0xfffe8 := by rw [hs]; decide
  have hregion : s.region = (0x100000, 0x101000) := hregion.trans (by decide)
  refine ⟨s, ⟨_, _, rfl, .cons first run⟩, fun h => absurd h left, hregion, hcall, ?_⟩
  rintro ⟨hlow, -⟩
  rw [State.regionAfter, if_neg left, hregion, hcall] at hlow
  exact absurd hlow (by decide)

/-- Under the slab allocators of the default build lies the same allocator. -/
theorem alloc_eq_slab {bump : PageBumpAlloc} (hstart : start + PageBumpAlloc.DEFAULT_SIZE < 2 ^ 64)
    (hcur : bump.current < 2 ^ 64) (room : bump.Exhausted ∨ OBJECT_PAGE_SIZE ≤ bump.current) :
    bump.alloc OBJECT_PAGE_SIZE start = some (alloc ⟨false, false⟩ bump start) := by
  rw [PageBumpAlloc.alloc, if_pos rfl]
  by_cases h : bump.Exhausted
  · rw [if_pos h, alloc_of_exhausted (b := ⟨false, false⟩) h hstart]
    rfl
  · rw [if_neg h, alloc_of_left (b := ⟨false, false⟩) start h hcur (room.resolve_left h)]

end UniAlloc.DescBump
