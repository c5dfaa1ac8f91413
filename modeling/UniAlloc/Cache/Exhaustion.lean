import UniAlloc.Cache.FixedHeap

/-!
# When the page backend has no memory

A call of `allocate` that needs pages which the backend does not have is not answered
with an error. For small blocks the call panics in `allocate_page`; for large ones the null
pointer of the backend is passed on as if it were a block.
-/

namespace UniAlloc.Cache

open Slab

variable {ι σ : Type} [DecidableEq ι]

/-- The error that `ThreadCache::allocate` can report. -/
inductive AllocError where
  | ENOMEM
  deriving DecidableEq

namespace State

variable (b : Build σ) (s : State ι σ) (t : ι) (layout : Layout)

/-- `BuddySystemAllocator::alloc`. -/
def backendAlloc : Nat × State ι σ :=
  if ISIZE_MAX < layout.size then (0, s)
  else
    match b.backend.alloc s.heap.back s.heap.mem s.heap.tree layout.size with
    | some (ptr, back, mem, tree) => (ptr, { s with heap := { s.heap with back, mem, tree } })
    | none => (0, s)

/-- `ZoneAllocator::allocate_large`. The pointer is not checked. -/
def zoneAllocateLarge : Except AllocError Nat × State ι σ :=
  let (ptr, s) := s.backendAlloc b layout
  (.ok ptr, s)

/-- `ThreadCacheUnit::allocate`. The other threads may move before it locks the slab
allocator. -/
def unitAllocate (meanwhile : State ι σ → State ι σ) (idx mapped : Nat) :
    Option (Nat × State ι σ) := do
  let (unit, mem, ans) ← (s.caches t idx).allocateLocal s.heap.mem layout.align
  let s := s.setUnit t idx unit mem
  if ans ≠ 0 then some (ans, s)
  else do
    let s := meanwhile s
    let (slab, heap, batch) ← b.allocateBatch (s.slabs idx) s.heap layout.align mapped
    let (unit, ans) ← (s.caches t idx).install heap.mem batch
    some (ans, (s.setSlab idx slab heap).setUnit t idx unit heap.mem)

/-- `ThreadCache::allocate`. -/
def threadAllocate (meanwhile : State ι σ → State ι σ) (mapped : Nat) :
    Option (Except AllocError Nat × State ι σ) :=
  match b.classes.getSizeClass layout.size with
  | .base idx =>
      if idx = 0 then some (.ok 0x100000000000, s)
      else if idx < b.classes.TOTAL_SIZE_CLASS then do
        let (ans, s) ← s.unitAllocate b t layout meanwhile idx mapped
        some (.ok ans, s)
      else none
  | .large _ =>
      match (meanwhile s).zoneAllocateLarge b layout with
      | (.ok ans, s) => some (.ok ans, s)
      | (.error _, s) => some (.error .ENOMEM, s)

/-- `RustAllocator::alloc`. -/
def rustAlloc (meanwhile : State ι σ → State ι σ) (mapped : Nat) : Option (Nat × State ι σ) := do
  let (r, s) ← s.threadAllocate b t layout meanwhile mapped
  match r with
  | .ok ptr => some (ptr, s)
  | .error _ => some (0, s)

/-- `RustAllocator::allocate`. The pointer of the slice is not checked. -/
def rustAllocate (meanwhile : State ι σ → State ι σ) (mapped : Nat) :
    Option (Except AllocError (Nat × Nat) × State ι σ) := do
  let (p, s) ← s.rustAlloc b t layout meanwhile mapped
  some (.ok (p, layout.size), s)

/-- The request needs pages that the backend cannot supply. For a small request `starves` says
so of the slab allocator it comes to. -/
def Starved (starves : SCAllocator → Heap σ → Nat → Prop) (meanwhile : State ι σ → State ι σ) :
    Prop :=
  match b.classes.getSizeClass layout.size with
  | .base idx => idx ≠ 0 ∧ idx < b.classes.TOTAL_SIZE_CLASS ∧ ∃ unit mem,
      (s.caches t idx).allocateLocal s.heap.mem layout.align = some (unit, mem, 0) ∧
      starves ((meanwhile (s.setUnit t idx unit mem)).slabs idx)
        (meanwhile (s.setUnit t idx unit mem)).heap layout.align
  | .large _ =>
      b.backend.alloc (meanwhile s).heap.back (meanwhile s).heap.mem (meanwhile s).heap.tree
        layout.size = none

/-- The live blocks, the lists of the threads and the rings are the same. -/
structure Untouched (s s' : State ι σ) : Prop where
  live : s'.live = s.live
  caches : s'.caches = s.caches
  slabs : s'.slabs = s.slabs
  desc : s'.heap.desc = s.heap.desc

/-- `alloc` returns null and `allocate` an error, and nothing has happened. -/
def Reported (meanwhile : State ι σ → State ι σ) (mapped : Nat) : Prop :=
  ∃ s₁ s₂, s.rustAlloc b t layout meanwhile mapped = some (0, s₁) ∧
    s.rustAllocate b t layout meanwhile mapped = some (.error .ENOMEM, s₂) ∧
    Untouched (meanwhile s) s₁ ∧ Untouched (meanwhile s) s₂

end State

/-- `allocate_batch_v2` needs a page for the batch. -/
def NeedsPage (slab : SCAllocator) (align : Nat) : Prop :=
  ¬(slab.partialStart ≠ 0 ∧ align = 1) ∧ slab.emptyStart = 0

/-- In the default build the backend has no run for the batch. -/
def Starves (B : PageBackend σ) (slab : SCAllocator) (h : Heap σ) (align : Nat) : Prop :=
  NeedsPage slab align ∧ B.alloc h.back h.mem h.tree (PAGE_SIZE * slab.pgNum) = none

/-- With a fixed heap it may be the page for the descriptor that the backend does not have. -/
def FixedStarves (B : PageBackend σ) (slab : SCAllocator) (h : Heap (FixedBack σ))
    (align : Nat) : Prop :=
  NeedsPage slab align ∧
    if NeedsDesc slab align then
      ∀ d back mem tree, h.back.takeDesc B h.mem h.tree = some (d, back, mem, tree) →
        B.alloc back.inner mem tree (PAGE_SIZE * slab.pgNum) = none
    else B.alloc h.back.inner h.mem h.tree (PAGE_SIZE * slab.pgNum) = none

/-- A starved slab allocator panics. -/
def Build.Panics (b : Build σ) (starves : SCAllocator → Heap σ → Nat → Prop) : Prop :=
  ∀ slab h align mapped, starves slab h align → b.allocateBatch slab h align mapped = none

theorem defaultBuild_panics (B : PageBackend σ) : (defaultBuild B).Panics (Starves B) :=
  fun _ _ _ _ h => allocateBatchV2_eq_none h.1.1 h.1.2 h.2

theorem fixedBackend_alloc_eq_none {B : PageBackend σ} {back : FixedBack σ} {mem : Mem}
    {tree : Radix.RadixTree} {size : Nat} (h : B.alloc back.inner mem tree size = none) :
    (fixedBackend B).alloc back mem tree size = none :=
  Option.bind_eq_none_iff.mpr fun _ hr => nomatch h.symm.trans hr

theorem fixedBuild_panics (B : PageBackend σ) (given : Heap (FixedBack σ) → Prop) :
    (fixedBuild B given).Panics (FixedStarves B) := by
  rintro slab h align mapped ⟨⟨hs, he⟩, hout⟩
  have hbatch : (fixedBuild B given).allocateBatch slab h align mapped =
      fixedAllocateBatch B slab h align := rfl
  rw [hbatch, fixedAllocateBatch]
  split
  · next needs =>
      rw [if_pos needs] at hout
      refine Option.bind_eq_none_iff.mpr fun r htake => ?_
      exact allocateBatchV2_eq_none hs he (fixedBackend_alloc_eq_none (hout _ _ _ _ htake))
  · next needs =>
      rw [if_neg needs] at hout
      exact allocateBatchV2_eq_none hs he (fixedBackend_alloc_eq_none hout)

section

variable {b : Build σ} {s : State ι σ} {t : ι} {layout : Layout}
  {meanwhile : State ι σ → State ι σ} {starves : SCAllocator → Heap σ → Nat → Prop}

/-- A call that comes to the slab allocator is the move `refill` of its thread. -/
theorem unitAllocate_eq_none_iff {unit : ThreadCacheUnit} {mem : Mem} (idx mapped : Nat)
    (hlocal : (s.caches t idx).allocateLocal s.heap.mem layout.align = some (unit, mem, 0)) :
    s.unitAllocate b t layout meanwhile idx mapped = none ↔
      (meanwhile (s.setUnit t idx unit mem)).refill b t idx layout mapped = none := by
  simp only [State.unitAllocate, State.refill, hlocal, Option.bind_eq_bind, Option.bind_some,
    ne_eq, not_true_eq_false, if_false, Option.bind_eq_none_iff, reduceCtorEq, imp_false]

/-- What a call answers when the request is starved: it panics if the request is small. If it
is large, the answer is null, which `allocate` wraps as a block. -/
structure Unanswered (b : Build σ) (s : State ι σ) (t : ι) (layout : Layout)
    (meanwhile : State ι σ → State ι σ) (mapped : Nat) : Prop where
  not_reported : ¬s.Reported b t layout meanwhile mapped
  small : ∀ idx, b.classes.getSizeClass layout.size = .base idx →
    s.rustAlloc b t layout meanwhile mapped = none ∧
      s.rustAllocate b t layout meanwhile mapped = none
  large : ∀ size, b.classes.getSizeClass layout.size = .large size →
    s.rustAlloc b t layout meanwhile mapped = some (0, meanwhile s) ∧
      s.rustAllocate b t layout meanwhile mapped = some (.ok (0, layout.size), meanwhile s)

theorem unanswered (panics : b.Panics starves) (mapped : Nat)
    (starved : s.Starved b t layout starves meanwhile) :
    Unanswered b s t layout meanwhile mapped := by
  refine ⟨?_, fun idx hclass => ?_, fun size hclass => ?_⟩
  · rintro ⟨s₁, s₂, -, herror, -⟩
    obtain ⟨⟨p, s'⟩, -, hok⟩ := Option.bind_eq_some_iff.mp herror
    cases hok
  · simp only [State.Starved, hclass] at starved
    obtain ⟨hpos, hlt, unit, mem, hlocal, hout⟩ := starved
    have hunit : s.unitAllocate b t layout meanwhile idx mapped = none := by
      rw [unitAllocate_eq_none_iff idx mapped hlocal, State.refill, panics _ _ _ mapped hout]
      rfl
    have halloc : s.rustAlloc b t layout meanwhile mapped = none := by
      rw [State.rustAlloc, State.threadAllocate, hclass]
      simp only [if_neg hpos, if_pos hlt, hunit, Option.bind_eq_bind, Option.bind_none]
    refine ⟨halloc, ?_⟩
    rw [State.rustAllocate, halloc]
    rfl
  · simp only [State.Starved, hclass] at starved
    have hback : (meanwhile s).backendAlloc b layout = (0, meanwhile s) := by
      rw [State.backendAlloc]
      split
      · rfl
      · rw [starved]
    have halloc : s.rustAlloc b t layout meanwhile mapped = some (0, meanwhile s) := by
      rw [State.rustAlloc, State.threadAllocate, hclass]
      simp only [State.zoneAllocateLarge, hback, Option.bind_eq_bind, Option.bind_some]
    refine ⟨halloc, ?_⟩
    rw [State.rustAllocate, halloc]
    rfl

end

/-- In neither build, in no state and for no layout is it reported that the backend cannot
supply the pages a request needs. -/
theorem exhaustion_unanswered (B : PageBackend σ) (t : ι) (layout : Layout) (mapped : Nat) :
    (∀ (s : State ι σ) meanwhile, s.Starved (defaultBuild B) t layout (Starves B) meanwhile →
      Unanswered (defaultBuild B) s t layout meanwhile mapped) ∧
    ∀ given (s : State ι (FixedBack σ)) meanwhile,
      s.Starved (fixedBuild B given) t layout (FixedStarves B) meanwhile →
      Unanswered (fixedBuild B given) s t layout meanwhile mapped :=
  ⟨fun _ _ starved => unanswered (defaultBuild_panics B) mapped starved,
    fun given _ _ starved => unanswered (fixedBuild_panics B given) mapped starved⟩

/-- The first request of a program, when the backend has no page at all. -/
def noPages : State Unit (Nat × Nat) :=
  State.new tcSizeClass (Heap.new (fun _ => 0) (0x1000000, 0x1000000))

theorem noPages_starved (size : Nat) (h : size = 24 ∨ size = 40000) :
    noPages.Starved (defaultBuild carving) () ⟨size, 8⟩ (Starves carving) id := by
  obtain rfl | rfl := h
  · have hclass : (defaultBuild carving).classes.getSizeClass 24 = .base 3 := by decide
    simp only [State.Starved, hclass]
    exact ⟨by decide, by decide, ThreadCacheUnit.new, fun _ => 0, rfl, ⟨by decide, by decide⟩, rfl⟩
  · have hclass : (defaultBuild carving).classes.getSizeClass 40000 = .large 40000 := by decide
    simp only [State.Starved, hclass]
    simp [defaultBuild, carving, noPages, State.new, Heap.new]

theorem exhaustion_unanswered_first :
    Unanswered (defaultBuild carving) noPages () ⟨24, 8⟩ id 0x7f0000000000 ∧
      Unanswered (defaultBuild carving) noPages () ⟨40000, 8⟩ id 0 :=
  ⟨(exhaustion_unanswered carving () ⟨24, 8⟩ 0x7f0000000000).1 _ _
      (noPages_starved 24 (.inl rfl)),
    (exhaustion_unanswered carving () ⟨40000, 8⟩ 0).1 _ _ (noPages_starved 40000 (.inr rfl))⟩

/-- Neither a small nor a large first request is answered as it should be. -/
theorem first_request_unreported :
    noPages.Starved (defaultBuild carving) () ⟨24, 8⟩ (Starves carving) id ∧
      ¬noPages.Reported (defaultBuild carving) () ⟨24, 8⟩ id 0x7f0000000000 ∧
      noPages.Starved (defaultBuild carving) () ⟨40000, 8⟩ (Starves carving) id ∧
      ¬noPages.Reported (defaultBuild carving) () ⟨40000, 8⟩ id 0 := by
  have small := noPages_starved 24 (.inl rfl)
  have large := noPages_starved 40000 (.inr rfl)
  exact ⟨small, (unanswered (defaultBuild_panics carving) _ small).not_reported,
    large, (unanswered (defaultBuild_panics carving) _ large).not_reported⟩

end UniAlloc.Cache
