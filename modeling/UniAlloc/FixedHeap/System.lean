import UniAlloc.FixedHeap.Operations
import UniAlloc.Bump.Meta

/-!
# Runs of a fixed heap

From `init_with_range` on pages are allocated and freed, the slab allocators enter their pages
in the page table and look addresses up, and the heap is extended. In between memory is
written, except for the page table and for the pages that the backend holds.
-/

namespace UniAlloc.FixedHeap

open FreeList (PG_SIZE BumpAlloc)
open MetaBump (Sizes)
open Radix (pageKey)
open Slab (PAGE_SIZE PageBumpAlloc align12k)

/-- Pages that the backend has handed out. -/
structure Block where
  ptr : Nat
  num : Nat
  deriving DecidableEq

/-- The pages of a block, by their numbers in a heap that begins at `base`. -/
def Block.span (base : Nat) (b : Block) : Span := ⟨(b.ptr - base) / PAGE_SIZE, b.num⟩

def pagesOf (base : Nat) (blocks : Multiset Block) : Multiset Nat :=
  blocks.bind fun b => (b.span base).pages

/-- The pages of the heap, which is as long as the page table. -/
def Heap.count (h : Heap) : Nat := (h.bump.checkPoint - h.array.base) / PAGE_SIZE

/-- The pages of a page table with `count` entries. -/
def tablePages (count : Nat) : Nat := (count * 8 + PAGE_SIZE - 1) / PAGE_SIZE

/-- `BumpAlloc::init_with_range`. The page table is the last block cut off the metadata. Its
entries are not cleared. -/
def Heap.initWithRange (sz : Sizes) (mem : Mem) (start finish pageSize : Nat) : Option Heap := do
  let metaBump ← MetaBump.BumpAlloc.initWithRange sz start finish pageSize
  some
    { mem
      array := ArrayNode.initWithRange start metaBump.current
      lists := fun _ => none
      bump := PageBump.initWithRange (MetaBump.BumpAlloc.metaEnd sz start finish pageSize) finish
      accessed := [] }

/-- The heap with the end of its metadata, the blocks in use, and the blocks in which page
tables lie or have lain. -/
structure State where
  heap : Heap
  metaEnd : Nat
  live : Multiset Block
  tables : Multiset Block

namespace State

variable (s : State)

def base : Nat := s.heap.array.base

/-- The pages given to `BUMP`. -/
def given : Nat := (s.heap.bump.checkPoint - s.metaEnd) / PG_SIZE

/-- The pages that are in use. -/
def livePages : Multiset Nat := pagesOf s.base s.live + pagesOf s.base s.tables

/-- Writes reach neither the page table nor a page that has been handed out and given back. -/
def Writable (a : Nat) : Prop :=
  ¬s.heap.array.InArray s.heap.count a ∧
    (s.metaEnd ≤ a → a < s.heap.bump.current → ∃ p ∈ s.livePages, s.heap.array.InPage p a)

/-- The block of the page table, if it lies in the heap. -/
def table : Block := ⟨s.heap.array.nodes, tablePages s.heap.count⟩

/-- `PG_BUMP` takes over the old page table if it continues its range. -/
def Continues (pgBump : PageBumpAlloc) : Prop :=
  s.heap.array.nodes + s.heap.count * 8 = pgBump.start

instance (pgBump : PageBumpAlloc) : Decidable (s.Continues pgBump) :=
  inferInstanceAs (Decidable (_ = _))

/-- The blocks of page tables after an extension that has led to the heap `h`. -/
def tablesAfter (pgBump : PageBumpAlloc) (h : Heap) : Multiset Block :=
  ⟨h.array.nodes, tablePages h.count⟩ ::ₘ
    if s.Continues pgBump then s.tables else s.tables.erase s.table

end State

inductive Move where
  | alloc (size : Nat)
  | free (b : Block) (size : Nat)
  | insert (b : Block) (k n : Nat) (v : Int)
  | remove (b : Block) (k n : Nat)
  | lookup (a : Nat)
  | store (a v : Nat)
  | extend (pgBump : PageBumpAlloc) (size : Nat)

/-- The steps of a heap. The slab allocators enter a run of pages in one or two pieces. `PG_BUMP`
is in any state. -/
inductive Step : State → Move → State → Prop where
  | alloc {s size h p} : 0 < size → size < 2 ^ 63 → s.heap.alloc size = some (h, .ok p) →
      Step s (.alloc size) { s with heap := h, live := ⟨p, originSize size + 1⟩ ::ₘ s.live }
  | exhausted {s size h e} : 0 < size → size < 2 ^ 63 → s.heap.alloc size = some (h, .error e) →
      Step s (.alloc size) { s with heap := h }
  | free {s b size h} : b ∈ s.live → originSize size + 1 = b.num →
      s.heap.free b.ptr size = some h →
      Step s (.free b size) { s with heap := h, live := s.live.erase b }
  | insert {s b k n v h} : b ∈ s.live → k + n ≤ b.num → 0 ≤ v →
      IsI64 v → s.heap.insert (align12k b.ptr + PAGE_SIZE * k) v n = some h →
      Step s (.insert b k n v) { s with heap := h }
  | remove {s b k n h} : b ∈ s.live → k + n ≤ b.num →
      s.heap.remove (align12k b.ptr + PAGE_SIZE * k) n = some h →
      Step s (.remove b k n) { s with heap := h }
  | lookup {s b a} : b ∈ s.live → b.ptr ≤ a →
      a < b.ptr + b.num * PAGE_SIZE →
      Step s (.lookup a) { s with heap := (s.heap.getMut (align12k a)).2 }
  | store {s a v} : s.Writable a →
      Step s (.store a v) { s with heap := { s.heap with mem := Function.update s.heap.mem a v } }
  | extend {s pgBump pgBump' size h} :
      s.heap.extend pgBump size PAGE_SIZE = some (h, pgBump') →
      Step s (.extend pgBump size) { s with heap := h, tables := s.tablesAfter pgBump h }

/-- A heap over any memory, with whatever it contains. -/
inductive Starts (sz : Sizes) (pageSize : Nat) : State → Prop where
  | init {mem start finish h} : start ≤ finish → finish < 2 ^ 64 →
      Heap.initWithRange sz mem start finish pageSize = some h →
      Starts sz pageSize ⟨h, MetaBump.BumpAlloc.metaEnd sz start finish pageSize, 0, 0⟩

/-- What `init_with_range` neither checks nor brings about: the heap is not at the null address,
it ends where the key of an address still is the address, the end of its metadata does not wrap,
and no word of its page table looks like a tag. -/
structure State.Placed (s : State) : Prop where
  pos : 0 < s.base
  bound : s.heap.bump.checkPoint < 2 ^ 48
  metaEnd : s.metaEnd < 2 ^ 63
  untagged : ∀ p < s.heap.count, 0 ≤ s.heap.array.entry s.heap.mem p

/-- The heaps with pages of the size that the backend and the page table have. -/
def PlacedStart (sz : Sizes) (s : State) : Prop := Starts sz PAGE_SIZE s ∧ s.Placed

end UniAlloc.FixedHeap
