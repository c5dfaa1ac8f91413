import UniAlloc.Collections.Linklist
import UniAlloc.Separate.Page
import UniAlloc.Slab.Register

/-!
# The separate slab allocator

`SCAllocator` keeps its pages in one vector of linked rings and the bits of all pages in
another vector, a slice of words for each page. Chunks are handed out one by one or in
batches, and the radix tree leads from a chunk to the index of its page. The memory of the
two vectors themselves is not modelled. A panic is `none`, and so is a subtraction below `0`
and a loop that does not end.
-/

namespace UniAlloc.Separate

open Slab (PAGE_SIZE PageBackend Kind align12k asUsize registerRun)
open Radix

/-- The number of words that hold the bits of a page. -/
def wordCount (pgCount : Nat) : Nat := (pgCount + 32 - 1) / 32

/-- Why a call that allocates does not return: a panic, or the assertion that the backend
has a run. -/
inductive Stop where
  | panic
  | refused
  deriving DecidableEq

def orPanic {α : Type} : Option α → Except Stop α
  | some a => .ok a
  | none => .error .panic

/-- The backend with its memory, and the radix tree. -/
structure Heap (σ : Type) where
  mem : Mem
  tree : RadixTree
  back : σ

/-- The starts and counts of the four rings, the parameters, the bits and the pages. -/
structure SCAllocator where
  start : Kind → Nat
  count : Kind → Nat
  pgNum : Nat
  pgCount : Nat
  pgAlign : Nat
  bitfields : List U32
  pages : ArrayLinkedList ObjectPage

variable {σ : Type} (B : PageBackend σ)

namespace SCAllocator

def new (sizeClass numOsPages : Nat) : SCAllocator :=
  if sizeClass = 0 then ⟨fun _ => 0, fun _ => 0, 0, 0, 0, [], .new⟩
  else
    ⟨fun _ => 0, fun _ => 0, numOsPages, Slab.SCAllocator.chunkCount sizeClass numOsPages,
      Slab.SCAllocator.chunkAlign sizeClass numOsPages, [], .new⟩

variable (self : SCAllocator) (h : Heap σ)

/-- The common body of the removals. -/
def removeFrom (kind : Kind) (idx : Nat) : Option SCAllocator := do
  let start ← (if idx = self.start kind then self.pages.getNext idx else some (self.start kind))
  let pages ← self.pages.removeNode idx
  if self.count kind = 0 then none
  else
    some { self with
      start := Function.update self.start kind start
      count := Function.update self.count kind (self.count kind - 1)
      pages }

/-- The common body of the insertions: `idx` goes in front of the start of the ring. -/
def insertInto (kind : Kind) (idx : Nat) : Option SCAllocator := do
  let pages ← (if self.count kind = 0 then self.pages.resetLinks idx
    else self.pages.insertToPrev (self.start kind) idx)
  some { self with
    start := if self.count kind = 0 then Function.update self.start kind idx else self.start
    count := Function.update self.count kind (self.count kind + 1)
    pages }

def removeFull (idx : Nat) : Option SCAllocator := self.removeFrom .full idx

def insertFull (idx : Nat) : Option SCAllocator := self.insertInto .full idx

def insertPartial (idx : Nat) : Option SCAllocator := self.insertInto .partially idx

def removePartial (idx : Nat) : Option SCAllocator := self.removeFrom .partially idx

def removeUninit (idx : Nat) : Option SCAllocator := self.removeFrom .uninit idx

/-- `self.bitfields[idx * n..(idx + 1) * n]`. -/
def slice (idx : Nat) : Option (List U32) :=
  let n := wordCount self.pgCount
  if (idx + 1) * n ≤ self.bitfields.length then some ((self.bitfields.drop (idx * n)).take n)
  else none

/-- The page and its bits after an operation on them. -/
def store (idx : Nat) (obj : ObjectPage) (bitfield : List U32) : SCAllocator :=
  let n := wordCount self.pgCount
  { self with
    bitfields := self.bitfields.take (idx * n) ++ bitfield ++ self.bitfields.drop ((idx + 1) * n)
    pages := self.pages.setItem idx obj }

/-- A page without memory, at the end of the vector, with clear bits. -/
def pushPage : SCAllocator :=
  { self with
    bitfields := self.bitfields ++ List.replicate (wordCount self.pgCount) 0
    pages := self.pages.push ObjectPage.new }

/-- `ObjectPage::allocate_page` of page `idx`. -/
def allocatePage (idx : Nat) : Except Stop (SCAllocator × Heap σ × Nat) := do
  let obj ← orPanic (self.pages.get idx)
  match B.alloc h.back h.mem h.tree (PAGE_SIZE * self.pgNum) with
  | none => .error .refused
  | some (ans, back, mem, tree) =>
      if ans = 0 then .error .panic
      else
        .ok ({ self with pages := self.pages.setItem idx { obj with data := ans } },
          ⟨mem, tree, back⟩, ans)

/-- `ObjectPage::destroy_page` of page `idx`. -/
def destroyPage (idx : Nat) : Option (SCAllocator × Heap σ) := do
  let obj ← self.pages.get idx
  if obj.data = 0 then none
  else do
    let (back, mem, tree) ← B.dealloc h.back h.mem h.tree obj.data (PAGE_SIZE * self.pgNum)
    some ({ self with pages := self.pages.setItem idx { obj with data := 0 } }, ⟨mem, tree, back⟩)

def getUninit : Except Stop (SCAllocator × Heap σ × Nat × Nat) := do
  let self :=
    if self.count .uninit = 0 then
      { self.pushPage with
        start := Function.update self.start .uninit self.pages.len
        count := Function.update self.count .uninit 1 }
    else self
  let res := self.start .uninit
  let self ← orPanic (self.removeUninit res)
  let (self, h, ptr) ← self.allocatePage B h res
  return (self, h, res, ptr)

/-- The page and, if it has got a new run, the address of the run. -/
def getEmpty : Except Stop (SCAllocator × Heap σ × Nat × Option Nat) :=
  if 0 < self.count .empty then do
    let res := self.start .empty
    let self ← orPanic (self.removeFrom .empty res)
    return (self, h, res, none)
  else do
    let (self, h, res, ptr) ← self.getUninit B h
    return (self, h, res, some ptr)

def backUninit (idx : Nat) : Option (SCAllocator × Heap σ) := do
  let self ← self.insertInto .uninit idx
  self.destroyPage B h idx

/-- The run that `back_ety` is about to give back. -/
def tryBackEty (idx : Nat) : Option (Option Nat) :=
  if 2048 < self.count .empty then do
    let obj ← self.pages.get idx
    if obj.data = 0 then none else some (some obj.data)
  else some none

def backEty (idx : Nat) : Option (SCAllocator × Heap σ) :=
  if 2048 < self.count .empty then self.backUninit B h idx
  else do
    let self ← self.insertInto .empty idx
    some (self, h)

/-- Registers a new run with the index of its page plus one. -/
def handleRdTreeInsert (ptrMap : RadixTree) (idx addr : Nat) : Option RadixTree :=
  registerRun self.pgNum ptrMap ((idx + 1 : Nat) : Int) addr

def handleRdTreeRemove (ptrMap : RadixTree) (addr : Nat) : Option RadixTree :=
  let rem := 4096 - (addr >>> Slab.PAGE_BITS) % 4096
  let ptr := align12k addr
  if self.pgNum ≤ rem then TreeNode.remove ptrMap (pageKey ptr) self.pgNum
  else do
    let ptrMap ← TreeNode.remove ptrMap (pageKey ptr) rem
    TreeNode.remove ptrMap (pageKey (ptr + 4096 * rem)) (self.pgNum - rem)

/-- `if let Some(addr) = idx.1 { .. }` at the end of an allocation. -/
def register (ptrMap : RadixTree) (idx : Nat) : Option Nat → Option RadixTree
  | some addr => self.handleRdTreeInsert ptrMap idx addr
  | none => some ptrMap

/-- `obj.allocate` of page `idx`. -/
def allocateIn (align idx : Nat) : Option (SCAllocator × Nat) := do
  let obj ← self.pages.get idx
  let bitfield ← self.slice idx
  let (obj, bitfield, ptr) := obj.allocate align bitfield self.pgCount self.pgAlign self.pgNum
  some (self.store idx obj bitfield, ptr)

/-- A page that has become full moves to the full ring. -/
def moveFull (idx : Nat) : Option SCAllocator := do
  let obj ← self.pages.get idx
  if obj.isFull self.pgCount then do
    let self ← self.removePartial idx
    self.insertFull idx
  else some self

/-- A page that has been opened goes to the ring that fits. -/
def fileAway (idx : Nat) : Option SCAllocator := do
  let obj ← self.pages.get idx
  if obj.isFull self.pgCount then self.insertFull idx else self.insertPartial idx

/-- The loop over the partially used pages. The address is null if none has a chunk. -/
def allocatePartial (align : Nat) : Nat → SCAllocator → Nat → Option (SCAllocator × Nat)
  | 0, _, _ => none
  | fuel + 1, self, head => do
      let (self, ptr) ← self.allocateIn align head
      if ptr = 0 then do
        let head ← self.pages.getNext head
        if head = self.start .partially then some (self, 0)
        else allocatePartial align fuel self head
      else do
        let self ← self.moveFull head
        some (self, ptr)

/-- The first part of `allocate` and of `allocate_batch`. -/
def tryPartial (align : Nat) : Option (SCAllocator × Nat) :=
  if 0 < self.count .partially then
    allocatePartial align self.pages.len self (self.start .partially)
  else some (self, 0)

/-- The address is `none` if the call returns `ENOMEM`. -/
def allocate (align : Nat) : Except Stop (SCAllocator × Heap σ × Option Nat) := do
  let (self, ptr) ← orPanic (self.tryPartial align)
  if ptr ≠ 0 then return (self, h, some ptr)
  else
    let (self, h, idx, newPage) ← self.getEmpty B h
    let (self, ptr) ← orPanic (self.allocateIn align idx)
    let self ← orPanic (self.fileAway idx)
    let tree ← orPanic (self.register h.tree idx newPage)
    return (self, { h with tree }, if ptr = 0 then none else some ptr)

/-- The address, the stride and the number of chunks; `0` stands for the one chunk at the
address. -/
def allocateBatch (align : Nat) : Except Stop (SCAllocator × Heap σ × Option Nat × Nat × Nat) := do
  let (self, ptr) ← orPanic (self.tryPartial align)
  if ptr ≠ 0 then return (self, h, some ptr, self.pgAlign, 0)
  else
    let (self, h, idx, newPage) ← self.getEmpty B h
    let obj ← orPanic (self.pages.get idx)
    let bitfield ← orPanic (self.slice idx)
    let (obj, bitfield, ptr) := obj.allocateAll bitfield self.pgCount
    let self ← orPanic ((self.store idx obj bitfield).fileAway idx)
    let tree ← orPanic (self.register h.tree idx newPage)
    return (self, { h with tree }, if ptr = 0 then none else some ptr, self.pgAlign, self.pgCount)

/-- `res_array[start..]` receives the chunks. -/
def writeFrom (resArray : List Nat) (start : Nat) (chunks : List Nat) : Option (List Nat) :=
  if start + chunks.length ≤ resArray.length then
    some (resArray.take start ++ chunks ++ resArray.drop (start + chunks.length))
  else none

/-- The first loop of `allocate_batch_v2`. -/
def fillPartial (count : Nat) :
    Nat → SCAllocator → List Nat → Nat → Option (SCAllocator × List Nat × Nat)
  | 0, _, _, _ => none
  | fuel + 1, self, resArray, allocated =>
      if 0 < self.count .partially ∧ allocated < count then do
        let idx := self.start .partially
        let obj ← self.pages.get idx
        let bitfield ← self.slice idx
        let (obj, bitfield, chunks) ←
          obj.allocateBatch (count - allocated) bitfield self.pgCount self.pgAlign
        let resArray ← writeFrom resArray allocated chunks
        let self ← (self.store idx obj bitfield).moveFull idx
        fillPartial count fuel self resArray (allocated + chunks.length)
      else some (self, resArray, allocated)

/-- The chunks that a page that has been opened gives to a batch, and the ring it goes to. -/
def openBatch (idx wanted : Nat) : Option (SCAllocator × List Nat) := do
  let obj ← self.pages.get idx
  let bitfield ← self.slice idx
  if self.pgCount ≤ wanted then do
    let (obj, bitfield, ptr) := obj.allocateAll bitfield self.pgCount
    let self ← (self.store idx obj bitfield).insertFull idx
    some (self, (List.range self.pgCount).map fun i => ptr + i * self.pgAlign)
  else do
    let (obj, bitfield, chunks) ← obj.allocateBatch wanted bitfield self.pgCount self.pgAlign
    let self ← (self.store idx obj bitfield).insertPartial idx
    some (self, chunks)

/-- The second loop of `allocate_batch_v2`. -/
def fillEmpty (count : Nat) :
    Nat → SCAllocator → Heap σ → List Nat → Nat →
      Except Stop (SCAllocator × Heap σ × List Nat × Nat)
  | 0, _, _, _, _ => .error .panic
  | fuel + 1, self, h, resArray, allocated =>
      if allocated < count then do
        let (self, h, idx, newPage) ← self.getEmpty B h
        let (self, chunks) ← orPanic (self.openBatch idx (count - allocated))
        let resArray ← orPanic (writeFrom resArray allocated chunks)
        let tree ← orPanic (self.register h.tree idx newPage)
        fillEmpty count fuel self { h with tree } resArray (allocated + chunks.length)
      else return (self, h, resArray, allocated)

/-- The array afterwards and the first chunk, which is `none` if the call returns `ESIZE`.
Each round of a loop allocates a chunk. -/
def allocateBatchV2 (resArray : List Nat) (countP : Nat) :
    Except Stop (SCAllocator × Heap σ × List Nat × Option Nat) := do
  let count := min countP resArray.length
  if count = 0 then return (self, h, resArray, none)
  else
    let (self, h, res) ← self.allocate B h 1
    let res ← orPanic res
    let resArray := resArray.set (count - 1) res
    let count := count - 1
    let (self, resArray, allocated) ← orPanic (fillPartial count (count + 1) self resArray 0)
    let (self, h, resArray, allocated) ← fillEmpty B count (count + 1) self h resArray allocated
    if allocated = count then return (self, h, resArray, some res) else .error .panic

/-- An empty page goes to the empty ring, or it loses its run. -/
def release (idx : Nat) : Option (SCAllocator × Heap σ) := do
  let released ← self.tryBackEty idx
  let tree ← (match released with
    | some p => self.handleRdTreeRemove h.tree p
    | none => some h.tree)
  self.backEty B { h with tree } idx

/-- The second half of a deallocation: the page moves to the ring its counter asks for. -/
def relocate (idx : Nat) (backPartial : Bool) : Option (SCAllocator × Heap σ) := do
  let obj ← self.pages.get idx
  if backPartial then do
    let self ← self.removeFull idx
    if obj.isEmpty then self.release B h idx
    else do
      let self ← self.insertPartial idx
      some (self, h)
  else if obj.isEmpty then do
    let self ← self.removePartial idx
    self.release B h idx
  else some (self, h)

/-- The index must not be negative. -/
def deallocate (ptr : Nat) : Option (SCAllocator × Heap σ) := do
  let v ← TreeNode.getMut h.tree (pageKey (align12k ptr))
  if v - 1 < 0 then none
  else do
    let idx := asUsize (v - 1)
    let obj ← self.pages.get idx
    let bitfield ← self.slice idx
    let backPartial := obj.isFull self.pgCount
    let (obj, bitfield) ← obj.deallocate ptr bitfield self.pgAlign
    (self.store idx obj bitfield).relocate B h idx backPartial

/-- The loop body of `deallocate_batch`: the page of the first address takes back what it can
from `rest`, and `t` tells how much that is. -/
def deallocateHead (ptr : Nat) (rest : List Nat) : Option (SCAllocator × Heap σ × Nat) := do
  let v ← TreeNode.getMut h.tree (pageKey (align12k ptr))
  let idx := asUsize (v - 1)
  let obj ← self.pages.get idx
  let bitfield ← self.slice idx
  let backPartial := obj.isFull self.pgCount
  let (obj, bitfield, t) ← obj.deallocateBatch rest bitfield self.pgAlign self.pgNum
  if t = 0 then none
  else do
    let (self, h) ← (self.store idx obj bitfield).relocate B h idx backPartial
    some (self, h, t)

def deallocateWhile (resArray : List Nat) (count : Nat) :
    Nat → SCAllocator → Heap σ → Nat → Option (SCAllocator × Heap σ)
  | 0, _, _, _ => none
  | fuel + 1, self, h, deallocated =>
      if deallocated < count then do
        let ptr ← resArray[deallocated]?
        let (self, h, t) ← self.deallocateHead B h ptr (resArray.drop deallocated)
        deallocateWhile resArray count fuel self h (deallocated + t)
      else some (self, h)

/-- Each round takes back a chunk. -/
def deallocateBatch (resArray : List Nat) (countP : Nat) : Option (SCAllocator × Heap σ) :=
  let count := min countP resArray.length
  if count = 0 then some (self, h)
  else deallocateWhile B resArray count (count + 1) self h 0

end SCAllocator

end UniAlloc.Separate
