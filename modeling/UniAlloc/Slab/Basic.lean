import UniAlloc.FreeList.Lists

/-!
# The slab allocator

A slab page is described by an `ObjectPage` that lives outside the page. Every
`SCAllocator` keeps its descriptors on four rings: full, partially used, empty,
and without memory. The free chunks of a page are linked through their first
words. Chunks leave a page all at once and come back as linked chains; the radix
tree leads from a chunk to the descriptor of its page. A panic is `none`.
-/

namespace UniAlloc.Slab

open Radix

def PAGE_SIZE : Nat := 4096

/-- `PAGE_SIZE.trailing_zeros()`. -/
def PAGE_BITS : Nat := 12

/-- `x as i32` of a `usize`. -/
def asI32 (x : Nat) : Int := (x : Int).bmod (2 ^ 32)

/-- `x as usize` of an `i32`. -/
def asUsize (x : Int) : Nat := (x % 2 ^ 64).toNat

def align12k (ptr : Nat) : Nat :=
  let pageVaddr := ptr &&& (2 ^ 64 - PAGE_SIZE)
  match compare 12 PAGE_BITS with
  | .gt => (pageVaddr <<< (12 - PAGE_BITS)) % 2 ^ 64
  | .lt => pageVaddr >>> (PAGE_BITS - 12)
  | .eq => pageVaddr

structure ObjectPage where
  counter : Nat
  data : Nat
  ptr : Nat
  prev : Nat
  next : Nat
  deriving DecidableEq

namespace ObjectPage

def new : ObjectPage := ⟨0, 0, 0, 0, 0⟩

def isFull (page : ObjectPage) (pgCount : Nat) : Bool := pgCount ≤ page.counter

def isEmpty (page : ObjectPage) : Bool := page.counter = 0

/-- Hands out all free chunks: the first one, their number, and the stride when
they lie in a row. -/
def allocateAll (page : ObjectPage) (pgCount pgAlign : Nat) :
    ObjectPage × Nat × Nat × Option Nat :=
  if page.counter = 0 then
    ({ page with counter := pgCount, ptr := 0 }, page.data, pgCount, some pgAlign)
  else
    ({ page with counter := pgCount, ptr := 0 }, page.ptr, pgCount - page.counter, none)

/-- The `while` loop of `deallocate`: follows the chain inside `[base, limit)`. The
result is the last node and the number of nodes. -/
def scan (mem : Mem) (base limit : Nat) : Nat → Nat → Nat → Option (Nat × Nat)
  | 0, _, _ => none
  | fuel + 1, cur, counter =>
      if base ≤ mem cur ∧ mem cur < limit then scan mem base limit fuel (mem cur) (counter + 1)
      else some (cur, counter)

/-- Takes back the part of the chain that lies in this page, and returns the rest
of the chain. A chain of more than `self.counter` nodes ends in the last
assertion if it ends at all, so the loop gets that many rounds. -/
def deallocate (page : ObjectPage) (mem : Mem) (freePtr pgNum : Nat) :
    Option (ObjectPage × Mem × Nat) := do
  let base := page.data
  let limit := base + pgNum * PAGE_SIZE
  if base ≤ freePtr ∧ freePtr < limit ∧ 0 < page.counter then
    let (cur, counter) ← scan mem base limit page.counter freePtr 1
    if counter ≤ page.counter then
      some ({ page with ptr := freePtr, counter := page.counter - counter },
        Function.update mem cur page.ptr, mem cur)
    else none
  else none

end ObjectPage

/-- The descriptors by address. -/
abbrev Descs := Nat → ObjectPage

namespace Descs

variable (desc : Descs)

/-- `get_prev` and `get_next` panic on null. -/
def getPrev (idx : Nat) : Option Nat :=
  if (desc idx).prev = 0 then none else some (desc idx).prev

def getNext (idx : Nat) : Option Nat :=
  if (desc idx).next = 0 then none else some (desc idx).next

def setPrev (idx nprev : Nat) : Descs :=
  Function.update desc idx { desc idx with prev := nprev }

def setNext (idx nnext : Nat) : Descs :=
  Function.update desc idx { desc idx with next := nnext }

/-- The common body of the insertions: `idx` goes in front of the start of the ring. -/
def insertRing (start idx : Nat) : Option (Descs × Nat) :=
  if start ≠ 0 then do
    let prev ← getPrev desc start
    let desc := setPrev desc idx prev
    let desc := setNext desc idx start
    let desc := setNext desc prev idx
    some (setPrev desc start idx, start)
  else
    some (setNext (setPrev desc idx idx) idx idx, idx)

/-- The common body of the removals. -/
def removeRing (start idx : Nat) : Option (Descs × Nat) :=
  if start ≠ 0 then do
    let headNext ← getNext desc start
    if headNext = start then
      if idx = start then some (desc, 0) else none
    else
      let prev ← getPrev desc idx
      let next ← getNext desc idx
      let desc := setPrev desc next prev
      let next ← getNext desc idx
      let prev ← getPrev desc idx
      let desc := setNext desc prev next
      some (desc, if start = idx then next else start)
  else none

end Descs

/-- `size_of::<EfObjectPage>()`. -/
def OBJECT_PAGE_SIZE : Nat := 40

structure PageBumpAlloc where
  start : Nat
  current : Nat
  deriving DecidableEq

namespace PageBumpAlloc

def DEFAULT_SIZE : Nat := OBJECT_PAGE_SIZE * PAGE_SIZE

def new : PageBumpAlloc := ⟨0, 0⟩

/-- The next allocation maps a new region. -/
def Exhausted (bump : PageBumpAlloc) : Prop :=
  bump.current ≤ bump.start ∨ DEFAULT_SIZE < bump.current - bump.start

instance (bump : PageBumpAlloc) : Decidable bump.Exhausted :=
  inferInstanceAs (Decidable (_ ∨ _))

/-- `mapped` is what `mmap` returns if a new region is needed. -/
def alloc (bump : PageBumpAlloc) (size mapped : Nat) : Option (PageBumpAlloc × Nat) :=
  if size = OBJECT_PAGE_SIZE then
    let bump := if bump.Exhausted then ⟨mapped, mapped + DEFAULT_SIZE⟩ else bump
    some ({ bump with current := bump.current - size }, bump.current - size)
  else none

end PageBumpAlloc

/-- `GlobalBackend`: `alloc` and `dealloc` of whole pages. The backend has a state of
its own, keeps data in the memory it holds, and shares the radix tree. Memory that
cannot be had is `none`. -/
structure PageBackend (σ : Type) where
  alloc : σ → Mem → RadixTree → Nat → Option (Nat × σ × Mem × RadixTree)
  dealloc : σ → Mem → RadixTree → Nat → Nat → Option (σ × Mem × RadixTree)

/-- Everything the slab allocators share. `created` records the descriptors written
so far. -/
structure Heap (σ : Type) where
  mem : Mem
  tree : RadixTree
  desc : Descs
  created : List Nat
  pgBump : PageBumpAlloc
  back : σ

variable {σ : Type} (B : PageBackend σ)

namespace Heap

def new (mem : Mem) (back : σ) : Heap σ :=
  ⟨mem, TreeNode.zeroed, fun _ => ObjectPage.new, [], PageBumpAlloc.new, back⟩

/-- `ObjectPage::allocate_page`. -/
def allocatePage (h : Heap σ) (idx pgNum : Nat) : Option (Heap σ × Nat) := do
  let (ans, back, mem, tree) ← B.alloc h.back h.mem h.tree (PAGE_SIZE * pgNum)
  if ans = 0 then none
  else
    some ({ h with
      back, mem, tree
      desc := Function.update h.desc idx { h.desc idx with data := ans, ptr := 0, counter := 0 } },
      ans)

/-- `ObjectPage::destroy_page`. -/
def destroyPage (h : Heap σ) (idx pgNum : Nat) : Option (Heap σ × Nat) :=
  if (h.desc idx).data ≠ 0 then do
    let p := (h.desc idx).data
    let (back, mem, tree) ← B.dealloc h.back h.mem h.tree p (PAGE_SIZE * pgNum)
    some ({ h with
      back, mem, tree
      desc := Function.update h.desc idx { h.desc idx with data := 0, ptr := 0, counter := 0 } },
      p)
  else none

/-- `ObjectPage::get_data_ptr`. -/
def getDataPtr (h : Heap σ) (idx : Nat) : Option Nat :=
  if (h.desc idx).data ≠ 0 then some (h.desc idx).data else none

end Heap

structure SCAllocator where
  fullStart : Nat
  partialStart : Nat
  emptyStart : Nat
  uninitStart : Nat
  emptyCount : Nat
  pgNum : Nat
  pgCount : Int
  pgAlign : Int
  deriving DecidableEq

/-- The four rings of an allocator. -/
inductive Kind where
  | full
  | partially
  | empty
  | uninit
  deriving DecidableEq

/-- `usize::next_power_of_two`. -/
def nextPowerOfTwo (x : Nat) : Nat := if x ≤ 1 then 1 else 2 ^ ((x - 1).log2 + 1)

/-- `usize::is_power_of_two`. -/
def isPowerOfTwo (x : Nat) : Bool := 2 ^ x.log2 = x

namespace SCAllocator

/-- `pg_count` of `new`, before the cast. -/
def chunkCount (sizeClass numOsPages : Nat) : Nat := PAGE_SIZE * numOsPages / sizeClass

/-- `align` of `new`, before the cast. -/
def chunkAlign (sizeClass numOsPages : Nat) : Nat :=
  let perfectAlign := PAGE_SIZE * numOsPages / chunkCount sizeClass numOsPages
  let diffAligh := perfectAlign - sizeClass
  let minAlign := if nextPowerOfTwo diffAligh / 2 = 0 then 1 else nextPowerOfTwo diffAligh / 2
  let rem :=
    if sizeClass % minAlign = 0 then sizeClass else (sizeClass / minAlign + 1) * minAlign
  if isPowerOfTwo perfectAlign then perfectAlign else rem

def new (sizeClass numOsPages : Nat) : SCAllocator :=
  if sizeClass = 0 then ⟨0, 0, 0, 0, 0, 0, 0, 0⟩
  else ⟨0, 0, 0, 0, 0, numOsPages, asI32 (chunkCount sizeClass numOsPages),
    asI32 (chunkAlign sizeClass numOsPages)⟩

/-- The start pointer of a ring. -/
def start (self : SCAllocator) : Kind → Nat
  | .full => self.fullStart
  | .partially => self.partialStart
  | .empty => self.emptyStart
  | .uninit => self.uninitStart

def setStart (self : SCAllocator) : Kind → Nat → SCAllocator
  | .full, s => { self with fullStart := s }
  | .partially, s => { self with partialStart := s }
  | .empty, s => { self with emptyStart := s }
  | .uninit, s => { self with uninitStart := s }

variable (self : SCAllocator) (h : Heap σ)

def removeFrom (kind : Kind) (idx : Nat) : Option (SCAllocator × Heap σ) := do
  let (desc, start) ← h.desc.removeRing (self.start kind) idx
  some (self.setStart kind start, { h with desc })

def insertInto (kind : Kind) (idx : Nat) : Option (SCAllocator × Heap σ) := do
  let (desc, start) ← h.desc.insertRing (self.start kind) idx
  some (self.setStart kind start, { h with desc })

def removeFull (idx : Nat) : Option (SCAllocator × Heap σ) := self.removeFrom h .full idx

def insertFull (idx : Nat) : Option (SCAllocator × Heap σ) := self.insertInto h .full idx

def insertPartial (idx : Nat) : Option (SCAllocator × Heap σ) := self.insertInto h .partially idx

def removePartial (idx : Nat) : Option (SCAllocator × Heap σ) := self.removeFrom h .partially idx

/-- Removes the start of the ring. -/
def removeUninit : Option (SCAllocator × Heap σ × Nat) := do
  let uninitHead := self.uninitStart
  let (self, h) ← self.removeFrom h .uninit uninitHead
  some (self, h, uninitHead)

/-- Removes the start of the ring. The count tells whether the ring becomes empty. -/
def removeEmpty : Option (SCAllocator × Heap σ × Nat) :=
  if self.emptyStart ≠ 0 ∧ 0 < self.emptyCount then do
    let etyHead := self.emptyStart
    let prev ← h.desc.getPrev etyHead
    let next ← h.desc.getNext etyHead
    let desc := h.desc.setPrev next prev
    let next ← desc.getNext etyHead
    let prev ← desc.getPrev etyHead
    let desc := desc.setNext prev next
    some ({ self with
      emptyStart := if 1 < self.emptyCount then next else 0
      emptyCount := self.emptyCount - 1 }, { h with desc }, etyHead)
  else none

/-- `mapped` is what `mmap` returns if a new region of descriptors is needed. -/
def getUninit (mapped : Nat) : Option (SCAllocator × Heap σ × Nat × Nat) :=
  if self.uninitStart ≠ 0 then do
    let (self, h, res) ← self.removeUninit h
    let (h, ptr) ← h.allocatePage B res self.pgNum
    some (self, h, res, ptr)
  else do
    let (pgBump, memory) ← h.pgBump.alloc OBJECT_PAGE_SIZE mapped
    if memory = 0 then none
    else
      let h := { h with
        pgBump
        desc := Function.update h.desc memory ObjectPage.new
        created := memory :: h.created }
      let (h, ptr) ← h.allocatePage B memory self.pgNum
      some (self, h, memory, ptr)

def getEmpty (mapped : Nat) : Option (SCAllocator × Heap σ × Nat × Option Nat) :=
  if self.emptyStart ≠ 0 then do
    let (self, h, res) ← self.removeEmpty h
    some (self, h, res, none)
  else do
    let (self, h, res, ptr) ← self.getUninit B h mapped
    some (self, h, res, some ptr)

def insertUninit (idx : Nat) : Option (SCAllocator × Heap σ × Nat) := do
  let (self, h) ← self.insertInto h .uninit idx
  let (h, p) ← h.destroyPage B idx self.pgNum
  some (self, h, p)

/-- The page `insert_ety` is about to give back. -/
def tryInsertEty (idx : Nat) : Option (Option Nat) :=
  if 2048 < self.emptyCount then do
    let ptr ← h.getDataPtr idx
    some (some ptr)
  else some none

def insertEty (idx : Nat) : Option (SCAllocator × Heap σ × Option Nat) :=
  if 2048 < self.emptyCount then do
    let (self, h, ptr) ← self.insertUninit B h idx
    some (self, h, some ptr)
  else do
    let (self, h) ← self.insertInto h .empty idx
    some ({ self with emptyCount := self.emptyCount + 1 }, h, none)

/-- Registers the pages of a new run, in two pieces if it crosses a multiple of
`2 ^ 16` pages. -/
def handleRdTreeInsert (pgNum : Nat) (ptrMap : RadixTree) (idx addr : Nat) : Option RadixTree :=
  let num := 2 ^ 16
  let rem := num - (addr >>> PAGE_BITS &&& num - 1)
  let ptr := align12k addr
  if pgNum ≤ rem then TreeNode.insert ptrMap (pageKey ptr) idx pgNum
  else do
    let ptrMap ← TreeNode.insert ptrMap (pageKey ptr) idx rem
    TreeNode.insert ptrMap (pageKey (ptr + 4096 * rem)) idx (pgNum - rem)

/-- Returns the first chunk, the number of chunks, and the stride when the chunks are
not linked yet. -/
def allocateBatchV2 (align mapped : Nat) :
    Option (SCAllocator × Heap σ × Nat × Nat × Option Nat) :=
  if self.partialStart ≠ 0 ∧ align = 1 then do
    let idx := self.partialStart
    let (page, ans) := (h.desc idx).allocateAll (asUsize self.pgCount) (asUsize self.pgAlign)
    let h := { h with desc := Function.update h.desc idx page }
    let (self, h) ← self.removePartial h idx
    let (self, h) ← self.insertFull h idx
    some (self, h, ans)
  else do
    let (self, h, obj, newPage) ← self.getEmpty B h mapped
    let (page, ans) := (h.desc obj).allocateAll (asUsize self.pgCount) (asUsize self.pgAlign)
    let h := { h with desc := Function.update h.desc obj page }
    let tree ← (match newPage with
      | some addr => handleRdTreeInsert self.pgNum h.tree obj addr
      | none => some h.tree)
    let (self, h) ← self.insertFull { h with tree } obj
    some (self, h, ans)

/-- Clears the pages of a run, in two pieces if it crosses a multiple of `4096` pages. -/
def handleRdTreeRemove (ptrMap : RadixTree) (addr : Nat) : Option RadixTree :=
  let rem := 4096 - (addr >>> PAGE_BITS) % 4096
  let ptr := align12k addr
  if self.pgNum ≤ rem then TreeNode.remove ptrMap (pageKey ptr) self.pgNum
  else do
    let ptrMap ← TreeNode.remove ptrMap (pageKey ptr) rem
    TreeNode.remove ptrMap (pageKey (ptr + 4096 * rem)) (self.pgNum - rem)

/-- The second half of the loop body of `deallocate_batch`: the page moves to the ring
its counter asks for. -/
def relocate (idx : Nat) (backPartial : Bool) : Option (SCAllocator × Heap σ) :=
  if (h.desc idx).isEmpty then do
    let (self, h) ← (if backPartial then self.removeFull h idx else self.removePartial h idx)
    let released ← self.tryInsertEty h idx
    let tree ← (match released with
      | some p => self.handleRdTreeRemove h.tree p
      | none => some h.tree)
    let (self, h, _) ← self.insertEty B { h with tree } idx
    some (self, h)
  else if backPartial then do
    let (self, h) ← self.removeFull h idx
    self.insertPartial h idx
  else some (self, h)

/-- The loop body of `deallocate_batch`: takes back the first part of the chain, which
lies in one page, and returns the rest of the chain. -/
def deallocateHead (head : Nat) : Option (SCAllocator × Heap σ × Nat) := do
  let v ← TreeNode.getMut h.tree (pageKey (align12k head))
  let idx := (v % 2 ^ 48).toNat
  if idx = 0 then none
  else
    let backPartial := (h.desc idx).isFull (asUsize self.pgCount)
    let (page, mem, head) ← (h.desc idx).deallocate h.mem head self.pgNum
    let (self, h) ← self.relocate B { h with mem, desc := Function.update h.desc idx page } idx
      backPartial
    some (self, h, head)

/-- Takes back a whole chain. The loop runs for at most `fuel` rounds. -/
def deallocateBatch : Nat → SCAllocator → Heap σ → Nat → Option (SCAllocator × Heap σ)
  | 0, self, h, head => if head = 0 then some (self, h) else none
  | fuel + 1, self, h, head =>
      if head = 0 then some (self, h)
      else do
        let (self, h, head) ← self.deallocateHead B h head
        deallocateBatch fuel self h head

end SCAllocator

end UniAlloc.Slab
