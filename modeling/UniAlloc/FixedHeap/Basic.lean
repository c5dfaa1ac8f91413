import UniAlloc.FixedHeap.ArrayNode
import UniAlloc.Bump.Descriptor

/-!
# The page backend of a fixed heap

`FreeList` with the page table of a fixed heap. It has fewer lists than in the default
build, and a run that is too long for them is not unmapped when it is freed. Memory that
no list can supply comes from `BUMP`, bottom up. The heap remembers the indices at which
the page table has been accessed. A panic is `none`.
-/

namespace UniAlloc.FixedHeap

open FreeList (PG_SIZE BumpAlloc tag flag)
open FreeList.DoubleLinkedList
open PageBump (wrappingSub)
open Radix (pageKey)
open Slab (PageBumpAlloc)

def BACKEND_MAX_PAGE : Nat := 32

/-- `(size + PG_SIZE - 1) / PG_SIZE - 1` -/
def originSize (size : Nat) : Nat := wrappingSub ((size + PG_SIZE - 1) / PG_SIZE) 1

/-- The memory, the page table, the heads of `FREELIST` and `BUMP`. -/
structure Heap where
  mem : Mem
  array : ArrayNode
  lists : Nat → Option Nat
  bump : BumpAlloc
  accessed : List Nat

namespace Heap

section Table

variable (h : Heap) (addr : Nat)

def insert (v : Int) (n : Nat) : Option Heap := do
  let mem ← h.array.insert h.mem (pageKey addr) v n
  some { h with mem, accessed := h.array.indices (pageKey addr) n ++ h.accessed }

def remove (n : Nat) : Option Heap := do
  let mem ← h.array.remove h.mem (pageKey addr) n
  some { h with mem, accessed := h.array.indices (pageKey addr) n ++ h.accessed }

def getMut : Int × Heap :=
  (h.array.getMut h.mem (pageKey addr),
    { h with accessed := h.array.indices (pageKey addr) 1 ++ h.accessed })

end Table

variable (h : Heap)

def removeOne (idx : Nat) : Option (Heap × Option Nat) :=
  if BACKEND_MAX_PAGE ≤ idx then none
  else
    match h.lists idx with
    | none => some (h, none)
    | some ans => do
        let h ← h.remove ans 1
        let h ← h.remove (ans + idx * PG_SIZE) 1
        let (mem, head) ← removeCurrent h.mem ans
        some ({ h with mem, lists := Function.update h.lists idx head }, some ans)

def removeSpecOne (idx ptr : Nat) : Option (Heap × Option Nat) :=
  if BACKEND_MAX_PAGE ≤ idx then none
  else do
    let (v, h) := h.getMut ptr
    -- the negation wraps
    if (-v).bmod (2 ^ 64) > 0 then
      let target ← getRef ptr
      match readNext h.mem target with
      | some prevNext =>
          if prevNext = ptr then
            let h ← h.remove ptr 1
            let h ← h.remove (ptr + idx * PG_SIZE) 1
            let (mem, newHead) ← removeCurrent h.mem target
            let lists := match newHead with
              | some head => Function.update h.lists idx (some head)
              | none => h.lists
            some ({ h with mem, lists }, some ptr)
          else some (h, none)
      | none => some (h, none)
    else some (h, none)

def insertOne (idx node : Nat) : Option Heap :=
  if BACKEND_MAX_PAGE ≤ idx then none
  else do
    let mem ← pushLocked h.mem (h.lists idx) node
    let h := { h with mem }
    let h ← h.insert node (tag idx) 1
    let h ← h.insert (node + idx * PG_SIZE) (tag idx) 1
    some { h with lists := Function.update h.lists idx (some node) }

/-- A new node is written into the run before it is inserted. -/
def insertNew (idx node : Nat) : Option Heap := do
  let ptr ← getRef node
  insertOne { h with mem := writeNew h.mem ptr } idx ptr

/-- `BUMP.lock().alloc(size)` -/
def allocBump (size : Nat) : Heap × Except PageBump.AllocError Nat :=
  let (bump, ans) := PageBump.allocFixed h.bump size
  ({ h with bump }, ans)

/-- The `while` loop, with so many lists left. -/
def allocParent (origin : Nat) : Nat → Heap → Option (Heap × Option Nat)
  | 0, h => some (h, none)
  | n + 1, h => do
      let parentIdx := BACKEND_MAX_PAGE - (n + 1)
      let (h, parent) ← h.removeOne parentIdx
      match parent with
      | some parent => do
          let remain := parent + PG_SIZE * (origin + 1)
          let h ← h.insertNew (parentIdx - origin - 1) remain
          some (h, some parent)
      | none => allocParent origin n h

/-- A list supplies the pages. -/
def allocListed (origin : Nat) : Option (Heap × Option Nat) :=
  if origin < BACKEND_MAX_PAGE then do
    let (h, ans) ← h.removeOne origin
    match ans with
    | some ans => some (h, some ans)
    | none => allocParent origin (BACKEND_MAX_PAGE - (origin + 1)) h
  else some (h, none)

/-- `FreeList::alloc` -/
def alloc (size : Nat) : Option (Heap × Except PageBump.AllocError Nat) := do
  let (h, ans) ← h.allocListed (originSize size)
  match ans with
  | some ans => some (h, .ok ans)
  | none => some (h.allocBump size)

/-- The run in front: `final_ptr` and `final_idx` after it has been looked at. -/
def mergePrev (ptr origin : Nat) : Option (Heap × Nat × Nat) := do
  let (v, h) := h.getMut (wrappingSub ptr PG_SIZE)
  let pflag := (flag v).toNat
  if flag v > 0 then
    let (h, prev) ← h.removeSpecOne (pflag - 1) (wrappingSub ptr (pflag * PG_SIZE))
    match prev with
    | some prevPtr => some (h, prevPtr, origin + pflag)
    | none => some (h, ptr, origin)
  else some (h, ptr, origin)

/-- The run behind. -/
def mergeNext (ptr origin finalIdx : Nat) : Option (Heap × Nat) := do
  let next := ptr + (origin + 1) * PG_SIZE
  let (v, h) := h.getMut next
  let nflag := (flag v).toNat
  if flag v > 0 then
    let (h, ans) ← h.removeSpecOne (nflag - 1) next
    match ans with
    | some _ => some (h, finalIdx + nflag)
    | none => some (h, finalIdx)
  else some (h, finalIdx)

/-- `FreeList::free` -/
def free (ptr size : Nat) : Option Heap := do
  let (h, finalPtr, finalIdx) ← h.mergePrev ptr (originSize size)
  let (h, finalIdx) ← h.mergeNext ptr (originSize size) finalIdx
  if finalIdx < BACKEND_MAX_PAGE then h.insertNew finalIdx finalPtr
  -- a longer run is not unmapped with a fixed heap
  else some h

/-- `ArrayNode::extend_with_range`, with the table that is replaced and the number of entries
copied from it. The new table is not cleared behind these. A division by zero and a write to
the null pointer are a panic. -/
def extendWithRange (size newEnd pageSize : Nat) : Option (Heap × Nat × Nat) :=
  if pageSize = 0 then none
  else do
    let prev := h.array.nodes
    let count := wrappingSub (wrappingSub newEnd size) h.array.base / pageSize
    let (h, ans) ← h.alloc (wrappingSub newEnd h.array.base / pageSize * 8)
    match ans with
    | .ok array =>
        let mem := copy h.mem prev array count
        some ({ h with mem, array := { h.array with nodes := array } }, prev, count)
    | .error _ => none

/-- `BUMP.lock().extend_with_range(size)` -/
def extendBump (size : Nat) : Heap := { h with bump := PageBump.extendWithRange h.bump size }

/-- `BumpAlloc::extend`: `PG_BUMP` is offered the old table, or it is given back. -/
def extend (pgBump : PageBumpAlloc) (size pageSize : Nat) : Option (Heap × PageBumpAlloc) := do
  let h := h.extendBump size
  let (h, prevRdTree, prevCount) ← h.extendWithRange size h.bump.checkPoint pageSize
  match DescBump.tryExtend pgBump prevRdTree (prevRdTree + prevCount * 8) pageSize with
  | some pgBump => some (h, pgBump)
  | none =>
      if prevRdTree &&& (pageSize - 1) = 0 then do
        let prevSize := DescBump.alignDown (prevCount * 8 + pageSize - 1) pageSize
        let h ← h.free prevRdTree prevSize
        some (h, pgBump)
      else none

end Heap

end UniAlloc.FixedHeap
