import UniAlloc.Bump.Descriptor
import UniAlloc.Bump.Meta

/-!
# When `mmap` fails

The three bump allocators of the default build turn `MAP_FAILED` into a null pointer and
go on with it as if a region had been mapped at address `0`.
-/

namespace UniAlloc.MapFailure

open Transition

/-- `usize::MAX`, which is `MAP_FAILED`. -/
def MAP_FAILED : Nat := 2 ^ 64 - 1

/-- The pointer with which an allocator goes on after `mmap` has returned `ret`. -/
def mapped (ret : Nat) : Nat := if ret = MAP_FAILED then 0 else ret

/-- A bump allocator over regions of `regionSize` bytes. `alloc` gets the pointer with which
it goes on if it calls `mmap`; `Err` is `none`. -/
structure Layer where
  Alloc : Type
  new : Alloc
  regionSize : Nat
  /-- The sizes that are requested. -/
  Requested : Nat → Prop
  /-- The request makes the allocator call `mmap`. -/
  Refills : Alloc → Nat → Prop
  alloc : Alloc → Nat → Nat → Alloc × Option Nat

/-- `freelist::BumpAlloc`. -/
def freelistBump : Layer where
  Alloc := FreeList.BumpAlloc
  new := FreeList.BumpAlloc.new
  regionSize := FreeList.BumpAlloc.DEFAULT_SIZE
  Requested size := 1 ≤ size ∧ size < 2 ^ 63
  Refills := PageBump.Exhausted
  alloc bump size start :=
    ((PageBump.allocMapped bump size start).1, (PageBump.allocMapped bump size start).2.toOption)

/-- `sc::BumpAlloc`. -/
def scBump : Layer where
  Alloc := MetaBump.BumpAlloc
  new := MetaBump.BumpAlloc.new
  regionSize := MetaBump.BumpAlloc.DEFAULT_SIZE
  Requested size := 1 ≤ size ∧ size < 2 ^ 63
  Refills bump _ := bump.Spent
  alloc bump size start := bump.alloc .mapped size start

/-- `PageBumpAlloc`, with huge pages or without. -/
def pageBump (hugepage : Bool) : Layer where
  Alloc := Slab.PageBumpAlloc
  new := Slab.PageBumpAlloc.new
  regionSize := DescBump.Build.DEFAULT_SIZE ⟨false, hugepage⟩
  Requested size := size = Slab.OBJECT_PAGE_SIZE
  Refills bump _ := DescBump.Exhausted ⟨false, hugepage⟩ bump
  alloc bump _ start :=
    ((DescBump.alloc ⟨false, hugepage⟩ bump start).1,
      some (DescBump.alloc ⟨false, hugepage⟩ bump start).2)

/-- The layers of the default build. -/
inductive DefaultLayer : Layer → Prop where
  | freelist : DefaultLayer freelistBump
  | sc : DefaultLayer scBump
  | page (hugepage : Bool) : DefaultLayer (pageBump hugepage)

namespace Layer

/-- The allocator, the regions that `mmap` has returned to it, also those it has given back, and
the address that the last call has returned, if it was not an `Err`. -/
structure State (L : Layer) where
  bump : L.Alloc
  regions : List (Nat × Nat)
  returned : Option Nat

/-- A call with the size of the request and what `mmap` returns if it is called. -/
structure Call where
  size : Nat
  ret : Nat

variable {L : Layer}

namespace State

def new : L.State := ⟨L.new, [], none⟩

/-- The state after a call that does not map a region. -/
def call (s : L.State) (size ret : Nat) : L.State where
  bump := (L.alloc s.bump size (mapped ret)).1
  regions := s.regions
  returned := (L.alloc s.bump size (mapped ret)).2

@[simp] theorem call_regions (s : L.State) (size ret : Nat) :
    (s.call size ret).regions = s.regions := rfl

/-- The state after a call that maps a region. -/
def callMapped (s : L.State) (size ret : Nat) : L.State :=
  { s.call size ret with regions := (ret, L.regionSize) :: s.regions }

/-- What the last call has returned lies in a region. -/
def Covered (s : L.State) : Prop :=
  ∀ p, s.returned = some p → ∃ r ∈ s.regions, r.1 ≤ p ∧ p < r.1 + r.2

end State

/-- A call that does not need `mmap`, one for which `mmap` returns a region of user space, and
one for which it fails. -/
inductive Step : L.State → Call → L.State → Prop where
  | left {s size ret} : L.Requested size → ¬L.Refills s.bump size →
      Step s ⟨size, ret⟩ (s.call size ret)
  | refilled {s size ret} : L.Requested size → L.Refills s.bump size → 0 < ret →
      ret + L.regionSize ≤ 2 ^ 63 → Step s ⟨size, ret⟩ (s.callMapped size ret)
  | failed {s size} : L.Requested size → L.Refills s.bump size →
      Step s ⟨size, MAP_FAILED⟩ (s.call size MAP_FAILED)

/-- A call for which `mmap` fails returns `Err`, and neither it nor any later call returns an
address outside the regions. -/
def FailsClean (s : L.State) (size : Nat) : Prop :=
  (L.alloc s.bump size (mapped MAP_FAILED)).2 = none ∧
    ∀ tr t, Run Step (s.call size MAP_FAILED) tr t → t.Covered

theorem regions_pos {s : L.State} (h : Reachable (· = State.new) Step s) :
    ∀ r ∈ s.regions, 0 < r.1 := by
  refine h.invariant (I := fun s => ∀ r ∈ s.regions, 0 < r.1) ?_ ?_
  · rintro _ rfl r hr
    exact absurd hr List.not_mem_nil
  · intro u c v hu step
    cases step with
    | left => exact hu
    | refilled _ _ hpos => exact List.forall_mem_cons.mpr ⟨hpos, hu⟩
    | failed => exact hu

end Layer

theorem mapped_failed : mapped MAP_FAILED = 0 := if_pos rfl

open Layer

/-- The region at address `0` is handed out down to its start. -/
theorem freelist_null_region :
    freelistBump.alloc ⟨0, FreeList.BumpAlloc.DEFAULT_SIZE⟩ FreeList.BumpAlloc.DEFAULT_SIZE 0 =
      (⟨0, 0⟩, some 0) :=
  rfl

theorem freelist_null_left : ¬freelistBump.Refills ⟨0, FreeList.BumpAlloc.DEFAULT_SIZE⟩
    FreeList.BumpAlloc.DEFAULT_SIZE := by
  show ¬PageBump.Exhausted _ _
  decide

/-- A request that is too large for the region at address `0` is an `Err`, and leaves this
region behind. -/
theorem freelist_failed {bump : FreeList.BumpAlloc} {size : Nat}
    (refills : freelistBump.Refills bump size)
    (herr : (freelistBump.alloc bump size 0).2 = none) :
    (freelistBump.alloc bump size 0).1 = ⟨0, FreeList.BumpAlloc.DEFAULT_SIZE⟩ := by
  have hinit : PageBump.init 0 = ⟨0, FreeList.BumpAlloc.DEFAULT_SIZE⟩ := by decide
  have refills : PageBump.Exhausted bump size := refills
  simp only [freelistBump, PageBump.allocMapped, if_pos refills, hinit] at herr ⊢
  split at herr
  · cases herr
  · rfl

/-- No layer of the default build handles a failure of `mmap`, whatever is requested. -/
theorem never_fails_clean {L : Layer} (hL : DefaultLayer L) {s : L.State}
    (h : Reachable (· = State.new) Step s) {size : Nat} (requested : L.Requested size)
    (refills : L.Refills s.bump size) : ¬FailsClean s size := by
  rintro ⟨herr, later⟩
  rw [mapped_failed] at herr
  cases hL with
  | freelist =>
      -- the next four gigabytes are returned at address `0`
      have hbump : (s.call size MAP_FAILED).bump = ⟨0, FreeList.BumpAlloc.DEFAULT_SIZE⟩ := by
        rw [State.call, mapped_failed]
        exact freelist_failed refills herr
      have left : ¬freelistBump.Refills (s.call size MAP_FAILED).bump
          FreeList.BumpAlloc.DEFAULT_SIZE := by
        rw [hbump]
        exact freelist_null_left
      have next : Step (s.call size MAP_FAILED) ⟨FreeList.BumpAlloc.DEFAULT_SIZE, MAP_FAILED⟩
          ((s.call size MAP_FAILED).call FreeList.BumpAlloc.DEFAULT_SIZE MAP_FAILED) :=
        .left ⟨by norm_num [FreeList.BumpAlloc.DEFAULT_SIZE],
          by norm_num [FreeList.BumpAlloc.DEFAULT_SIZE]⟩ left
      have hzero : ((s.call size MAP_FAILED).call FreeList.BumpAlloc.DEFAULT_SIZE
          MAP_FAILED).returned = some 0 := by
        rw [State.call, hbump, mapped_failed, freelist_null_region]
      have covered := later _ _ (Run.single next)
      obtain ⟨r, hr, hle, -⟩ := covered 0 hzero
      rw [State.call_regions, State.call_regions] at hr
      exact Nat.not_le.mpr (regions_pos h r hr) hle
  | sc =>
      have refills : s.bump.Spent := refills
      simp [scBump, MetaBump.BumpAlloc.alloc, if_pos refills] at herr
  | page hugepage => exact Option.some_ne_none _ herr

/-- The first page of the page backend, the first metadata and the first descriptor. -/
theorem never_fails_clean_first :
    ¬FailsClean (State.new : freelistBump.State) 4096 ∧
      ¬FailsClean (State.new : scBump.State) 4096 ∧
      ¬FailsClean (State.new : (pageBump false).State) 40 :=
  ⟨never_fails_clean .freelist ⟨_, [], rfl, .nil⟩ ⟨by norm_num, by norm_num⟩
      (by decide : PageBump.Exhausted FreeList.BumpAlloc.new 4096),
    never_fails_clean .sc ⟨_, [], rfl, .nil⟩ ⟨by norm_num, by norm_num⟩
      (by decide : MetaBump.BumpAlloc.new.Spent),
    never_fails_clean (.page false) ⟨_, [], rfl, .nil⟩ rfl
      (by decide : DescBump.Exhausted ⟨false, false⟩ Slab.PageBumpAlloc.new)⟩

/-- They are all returned as `Ok`, with addresses of the region at address `0`. -/
theorem null_region_returned :
    (freelistBump.alloc freelistBump.new 4096 (mapped MAP_FAILED)).2 = some 0xfffff000 ∧
      (scBump.alloc scBump.new 4096 (mapped MAP_FAILED)).2 = some 0x3fff000 ∧
      ((pageBump false).alloc (pageBump false).new 40 (mapped MAP_FAILED)).2 = some 0x27fd8 ∧
      ¬FailsClean (State.new : freelistBump.State) 4096 := by
  have hcall : (freelistBump.alloc freelistBump.new 4096 (mapped MAP_FAILED)).2 =
      some 0xfffff000 := by decide
  refine ⟨hcall, by decide, by decide, fun clean => ?_⟩
  exact absurd (hcall.symm.trans clean.1) (by decide)

end UniAlloc.MapFailure
