import UniAlloc.Cache.System

/-!
# The build with a fixed heap

With a fixed heap there is no `mmap`: when `PG_BUMP` has used up its region it takes
a page from the page backend. Everything else is as in the default build.
-/

namespace UniAlloc.Cache

open Slab Radix

variable {σ : Type}

/-- The page backend together with `PG_BUMP`, the memory that has been given to it, and the
large blocks. -/
structure FixedBack (σ : Type) where
  inner : σ
  pgBump : PageBumpAlloc
  regions : List FreeList.Block
  large : List FreeList.Block

/-- The page backend of the slab allocators. -/
def fixedBackend (B : PageBackend σ) : PageBackend (FixedBack σ) where
  alloc back mem tree size := do
    let (ptr, inner, mem, tree) ← B.alloc back.inner mem tree size
    some (ptr, { back with inner }, mem, tree)
  dealloc back mem tree ptr size := do
    let (inner, mem, tree) ← B.dealloc back.inner mem tree ptr size
    some ({ back with inner }, mem, tree)

/-- `PageBumpAlloc::alloc` with a fixed heap, for a descriptor. -/
def FixedBack.takeDesc (B : PageBackend σ) (back : FixedBack σ) (mem : Mem) (tree : RadixTree) :
    Option (Nat × FixedBack σ × Mem × RadixTree) :=
  if back.pgBump.Exhausted then do
    let (start, inner, mem, tree) ← B.alloc back.inner mem tree 4096
    let newCur := start + 4096 - OBJECT_PAGE_SIZE
    some (newCur, ⟨inner, ⟨start, newCur⟩, ⟨start, 1⟩ :: back.regions, back.large⟩, mem, tree)
  else
    let newCur := back.pgBump.current - OBJECT_PAGE_SIZE
    some (newCur, { back with pgBump := ⟨back.pgBump.start, newCur⟩ }, mem, tree)

/-- `get_uninit` creates a descriptor if this is the next call. -/
def NeedsDesc (slab : SCAllocator) (align : Nat) : Prop :=
  ¬(slab.partialStart ≠ 0 ∧ align = 1) ∧ slab.emptyStart = 0 ∧ slab.uninitStart = 0

instance (slab : SCAllocator) (align : Nat) : Decidable (NeedsDesc slab align) :=
  inferInstanceAs (Decidable (¬(_ ∧ _) ∧ _ ∧ _))

/-- `allocate_batch_v2` with a fixed heap. The descriptor that `PG_BUMP` hands out is all that
`allocate_batch_v2` finds in its region. -/
def fixedAllocateBatch (B : PageBackend σ) (slab : SCAllocator) (heap : Heap (FixedBack σ))
    (align : Nat) : Option (SCAllocator × Heap (FixedBack σ) × Nat × Nat × Option Nat) :=
  if NeedsDesc slab align then do
    let (d, back, mem, tree) ← heap.back.takeDesc B heap.mem heap.tree
    slab.allocateBatchV2 (fixedBackend B)
      { heap with back, mem, tree, pgBump := ⟨d, d + OBJECT_PAGE_SIZE⟩ } align 0
  else slab.allocateBatchV2 (fixedBackend B) heap align 0

/-- The rest of the region of `PG_BUMP` holds a descriptor, unless it is used up. -/
def HasRoom (bump : PageBumpAlloc) : Prop :=
  bump.Exhausted ∨ OBJECT_PAGE_SIZE ≤ bump.current - bump.start

instance (bump : PageBumpAlloc) : Decidable (HasRoom bump) :=
  inferInstanceAs (Decidable (_ ∨ _))

/-- No page is left for the batch, or none for the descriptor. -/
def FixedExhausted (B : PageBackend σ) (heap : Heap (FixedBack σ)) (pgNum : Nat) : Prop :=
  B.alloc heap.back.inner heap.mem heap.tree (PAGE_SIZE * pgNum) = none ∨
    heap.back.takeDesc B heap.mem heap.tree = none ∨
    ∃ d back mem tree, heap.back.takeDesc B heap.mem heap.tree = some (d, back, mem, tree) ∧
      B.alloc back.inner mem tree (PAGE_SIZE * pgNum) = none

/-- The build with a fixed heap on top of a page backend. `given` says what is assumed of the
heap when the slab allocator is called. -/
def fixedBuild (B : PageBackend σ) (given : Heap (FixedBack σ) → Prop) : Build (FixedBack σ) where
  classes := smallSizeClass
  backend := fixedBackend B
  allocateBatch slab heap align _ := fixedAllocateBatch B slab heap align
  maps heap _ := given heap
  exhausted := FixedExhausted B

end UniAlloc.Cache
