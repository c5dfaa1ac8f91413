import UniAlloc.Cache.Basic
import UniAlloc.Slab.Allocate
import UniAlloc.Transition.Basic

/-!
# Threads and their caches

Any number of threads allocate and deallocate small blocks, write to them, and end.
A call of `allocate` first looks at the cache of its thread; if it finds nothing
there it locks the slab allocator of the class and takes a batch. A thread that ends
returns the units of its cache one after the other. A locked call of a slab
allocator is one step, and so is what a thread does between two locked calls.
-/

namespace UniAlloc.Cache

open Slab Transition

structure Layout where
  size : Nat
  align : Nat
  deriving DecidableEq

/-- A block that has been allocated and not been deallocated. -/
structure Live where
  ptr : Nat
  layout : Layout
  deriving DecidableEq

/-- What differs between the builds: the size classes, the page backend, and where the slab
allocators get their descriptors from. `mapped` is what `mmap` returns if a new region is
needed, and `maps` says what is assumed of it. `exhausted` says that there is no memory for
a run of so many pages. -/
structure Build (σ : Type) where
  classes : SizeClasses
  backend : PageBackend σ
  allocateBatch : SCAllocator → Heap σ → Nat → Nat →
    Option (SCAllocator × Heap σ × Nat × Nat × Option Nat)
  maps : Heap σ → Nat → Prop
  exhausted : Heap σ → Nat → Prop

/-- Where a thread is. -/
inductive Pc where
  | idle
  /-- in `allocate`, before `allocate_batch_from_slab` -/
  | refill (idx : Nat) (layout : Layout)
  /-- in `cleanup_cache_unchecked`, before `clean_up` of this unit -/
  | cleaning (idx : Nat)
  /-- in `clean_up`, before `deallocate_batch_to_slab` -/
  | returning (idx : Nat)
  | exited
  deriving DecidableEq

/-- The slab allocators of `GLOBAL_ZONE`, what they share, and the threads with the units
of their caches. -/
structure State (ι σ : Type) where
  slabs : Nat → SCAllocator
  heap : Heap σ
  caches : ι → Nat → ThreadCacheUnit
  pc : ι → Pc
  live : Multiset Live

inductive Move where
  | allocate (layout : Layout)
  | refill (mapped : Nat)
  | deallocate (block : Live)
  /-- The program writes a word of a block. -/
  | store (block : Live) (offset v : Nat)
  | exit
  | flush
  | giveBack

variable {ι σ : Type} [DecidableEq ι]

/-- `ZoneAllocator::new`. -/
def slabsNew (C : SizeClasses) (idx : Nat) : SCAllocator :=
  SCAllocator.new (C.getRoundedSizeByIdx idx) (C.getNumPagesByIdx idx)

namespace State

def new (C : SizeClasses) (heap : Heap σ) : State ι σ :=
  ⟨slabsNew C, heap, fun _ _ => ThreadCacheUnit.new, fun _ => .idle, 0⟩

variable (b : Build σ) (s : State ι σ) (t : ι)

def setPc (pc : Pc) : State ι σ := { s with pc := Function.update s.pc t pc }

/-- Unit `idx` of the cache of thread `t`, and the memory. -/
def setUnit (idx : Nat) (unit : ThreadCacheUnit) (mem : Mem) : State ι σ :=
  { s with
    caches := Function.update s.caches t (Function.update (s.caches t) idx unit)
    heap := { s.heap with mem } }

/-- The slab allocator `idx` and the heap. -/
def setSlab (idx : Nat) (slab : SCAllocator) (heap : Heap σ) : State ι σ :=
  { s with slabs := Function.update s.slabs idx slab, heap }

def addLive (block : Live) : State ι σ := { s with live := block ::ₘ s.live }

/-- `ThreadCache::allocate` as far as it does not need the slab allocator. -/
def allocate (layout : Layout) : Option (State ι σ) :=
  match b.classes.getSizeClass layout.size with
  | .base idx =>
      if idx = 0 then some (s.addLive ⟨0x100000000000, layout⟩)
      else if idx < b.classes.TOTAL_SIZE_CLASS then do
        let (unit, mem, ans) ← (s.caches t idx).allocateLocal s.heap.mem layout.align
        let s := s.setUnit t idx unit mem
        if ans ≠ 0 then some (s.addLive ⟨ans, layout⟩) else some (s.setPc t (.refill idx layout))
      else none
  -- large blocks do not come from the cache
  | .large _ => none

/-- The rest of `ThreadCacheUnit::allocate`. -/
def refill (idx : Nat) (layout : Layout) (mapped : Nat) : Option (State ι σ) := do
  let (slab, heap, batch) ← b.allocateBatch (s.slabs idx) s.heap layout.align mapped
  let (unit, ans) ← (s.caches t idx).install heap.mem batch
  some ((((s.setSlab idx slab heap).setUnit t idx unit heap.mem).addLive ⟨ans, layout⟩).setPc t
    .idle)

/-- `ThreadCache::deallocate`. -/
def deallocate (block : Live) : Option (State ι σ) :=
  match b.classes.getSizeClass block.layout.size with
  | .base idx =>
      if idx = 0 then some { s with live := s.live.erase block }
      else if idx < b.classes.TOTAL_SIZE_CLASS then
        let (unit, mem) := (s.caches t idx).deallocate s.heap.mem block.ptr
        some { s.setUnit t idx unit mem with live := s.live.erase block }
      else none
  | .large _ => none

def store (block : Live) (offset v : Nat) : State ι σ :=
  { s with heap := { s.heap with mem := Function.update s.heap.mem (block.ptr + offset) v } }

/-- The loop of `cleanup_cache_unchecked`, and the first half of `clean_up`. -/
def flush (idx : Nat) : State ι σ :=
  if idx < b.classes.TOTAL_SIZE_CLASS then
    let (unit, mem) := (s.caches t idx).flush s.heap.mem
    (s.setUnit t idx unit mem).setPc t (.returning idx)
  else s.setPc t .exited

/-- The second half of `clean_up`. -/
def giveBack (idx : Nat) : Option (State ι σ) := do
  let list := (s.caches t idx).list
  let (slab, heap) ←
    (if 0 < list.length then
      SCAllocator.deallocateBatch b.backend list.length (s.slabs idx) s.heap list.link
    else some (s.slabs idx, s.heap))
  some (((s.setSlab idx slab heap).setUnit t idx ThreadCacheUnit.new heap.mem).setPc t
    (.cleaning (idx + 1)))

/-- What a thread may do. `request` says which sizes are asked for; a block is given back
at most once, and only live blocks are written to. -/
def Enabled (request : Nat → Prop) : Move → Prop
  | .allocate layout => s.pc t = .idle ∧ request layout.size
  | .refill mapped => (∃ idx layout, s.pc t = .refill idx layout) ∧ b.maps s.heap mapped
  | .deallocate block => s.pc t = .idle ∧ block ∈ s.live
  | .store block offset _ => s.pc t = .idle ∧ block ∈ s.live ∧ offset < block.layout.size
  | .exit => s.pc t = .idle
  | .flush => ∃ idx, s.pc t = .cleaning idx
  | .giveBack => ∃ idx, s.pc t = .returning idx

/-- The state after a move, unless it panics. -/
def exec : Move → Option (State ι σ)
  | .allocate layout => s.allocate b t layout
  | .refill mapped =>
      match s.pc t with
      | .refill idx layout => s.refill b t idx layout mapped
      | _ => none
  | .deallocate block => s.deallocate b t block
  | .store block offset v => some (s.store block offset v)
  -- unit `0` is never used
  | .exit => some (s.setPc t (.cleaning 1))
  | .flush =>
      match s.pc t with
      | .cleaning idx => some (s.flush b t idx)
      | _ => none
  | .giveBack =>
      match s.pc t with
      | .returning idx => s.giveBack b t idx
      | _ => none

end State

/-- One thread makes one move. -/
def Step (b : Build σ) (request : Nat → Prop) (s : State ι σ) (m : ι × Move) (s' : State ι σ) :
    Prop :=
  s.Enabled b m.1 request m.2 ∧ s.exec b m.1 m.2 = some s'

section Play

instance : (pc : Pc) → Decidable (∃ idx layout, pc = .refill idx layout)
  | .refill idx layout => isTrue ⟨idx, layout, rfl⟩
  | .idle | .cleaning _ | .returning _ | .exited => isFalse (by simp)

instance : (pc : Pc) → Decidable (∃ idx, pc = .cleaning idx)
  | .cleaning idx => isTrue ⟨idx, rfl⟩
  | .idle | .refill _ _ | .returning _ | .exited => isFalse (by simp)

instance : (pc : Pc) → Decidable (∃ idx, pc = .returning idx)
  | .returning idx => isTrue ⟨idx, rfl⟩
  | .idle | .refill _ _ | .cleaning _ | .exited => isFalse (by simp)

variable (b : Build σ) (s : State ι σ) (t : ι) (request : Nat → Prop) [DecidablePred request]
  [∀ heap mapped, Decidable (b.maps heap mapped)]

instance : (m : Move) → Decidable (s.Enabled b t request m)
  | .allocate layout => inferInstanceAs (Decidable (s.pc t = .idle ∧ request layout.size))
  | .refill mapped => inferInstanceAs (Decidable
      ((∃ idx layout, s.pc t = .refill idx layout) ∧ b.maps s.heap mapped))
  | .deallocate block => inferInstanceAs (Decidable (s.pc t = .idle ∧ block ∈ s.live))
  | .store block offset _ => inferInstanceAs (Decidable
      (s.pc t = .idle ∧ block ∈ s.live ∧ offset < block.layout.size))
  | .exit => inferInstanceAs (Decidable (s.pc t = .idle))
  | .flush => inferInstanceAs (Decidable (∃ idx, s.pc t = .cleaning idx))
  | .giveBack => inferInstanceAs (Decidable (∃ idx, s.pc t = .returning idx))

/-- The step a move stands for, if it is possible. -/
def State.move (m : ι × Move) : Option ((ι × Move) × State ι σ) :=
  if s.Enabled b m.1 request m.2 then (s.exec b m.1 m.2).map fun s' => (m, s') else none

variable {b s request}

theorem State.move_step {m : ι × Move} {x : (ι × Move) × State ι σ}
    (h : s.move b request m = some x) : Step b request s x.1 x.2 := by
  obtain ⟨enabled, h⟩ := Option.ite_none_right_eq_some.mp h
  obtain ⟨s', hexec, rfl⟩ := Option.map_eq_some_iff.mp h
  exact ⟨enabled, hexec⟩

end Play

/-- The default build on top of a page backend: descriptors come from `mmap`. -/
def defaultBuild (B : PageBackend σ) : Build σ where
  classes := tcSizeClass
  backend := B
  allocateBatch slab heap align mapped := slab.allocateBatchV2 B heap align mapped
  maps heap mapped := heap.pgBump.Exhausted → FreshDescs heap.created mapped
  exhausted heap pgNum := B.alloc heap.back heap.mem heap.tree (PAGE_SIZE * pgNum) = none

/-- The sizes of small requests. -/
def SmallRequest (C : SizeClasses) (size : Nat) : Prop := 1 ≤ size ∧ size ≤ C.MAX_SIZE

instance (C : SizeClasses) : DecidablePred (SmallRequest C) :=
  fun _ => inferInstanceAs (Decidable (_ ∧ _))

instance (B : PageBackend σ) (heap : Heap σ) (mapped : Nat) :
    Decidable ((defaultBuild B).maps heap mapped) :=
  inferInstanceAs (Decidable (heap.pgBump.Exhausted → FreshDescs heap.created mapped))

end UniAlloc.Cache
