import UniAlloc.Memory
import UniAlloc.Radix.Basic

/-!
# The page backend

`FreeList` keeps one doubly linked list of free page runs for every length up to
`BACKEND_MAX_PAGE`. The nodes lie in the free memory itself and the radix tree
carries a negative tag at the first and at the last page of every free run.
Memory that no list can supply is carved from `BUMP`, top down, out of regions
obtained from `mmap`. A panic is `none`.
-/

namespace UniAlloc.FreeList

open Radix

def PG_SIZE : Nat := 4096

def BACKEND_MAX_PAGE : Nat := 128

namespace DoubleLinkedList

/-- `prev` is stored in front of `next`. -/
def readPrev (mem : Mem) (node : Nat) : Option Nat := mem.readOption node

def readNext (mem : Mem) (node : Nat) : Option Nat := mem.readOption (node + 16)

def writePrev (mem : Mem) (node : Nat) (v : Option Nat) : Mem := mem.writeOption node v

def writeNext (mem : Mem) (node : Nat) (v : Option Nat) : Mem := mem.writeOption (node + 16) v

/-- `core::ptr::write(node, DoubleLinkedList::new())`. -/
def writeNew (mem : Mem) (node : Nat) : Mem := writeNext (writePrev mem node none) node none

/-- `get_ref` panics on a null pointer. -/
def getRef (ptr : Nat) : Option Nat := if ptr = 0 then none else some ptr

def pushBeforeHead (mem : Mem) (self newNode : Nat) : Option Mem := do
  let mem := writePrev mem self (some newNode)
  let node ← getRef newNode
  let mem := writeNext mem node (some self)
  some (writePrev mem node none)

/-- `if let Some(to_remove) = locked.take() { to_remove.push_before_head(node) }`. -/
def pushLocked (mem : Mem) (head : Option Nat) (newNode : Nat) : Option Mem :=
  match head with
  | some toRemove => pushBeforeHead mem toRemove newNode
  | none => some mem

/-- Returns the new head of the list when the removed node was the head. -/
def removeCurrent (mem : Mem) (self : Nat) : Option (Mem × Option Nat) :=
  match readPrev mem self with
  | some prev =>
      match readNext mem self with
      | some next => do
          let prevRef ← getRef prev
          let mem := writeNext mem prevRef (some next)
          let nextRef ← getRef next
          some (writePrev mem nextRef (some prev), none)
      | none => do
          let prevRef ← getRef prev
          some (writeNext mem prevRef none, none)
  | none =>
      match readNext mem self with
      | some next => do
          let nextRef ← getRef next
          some (writePrev mem nextRef none, some nextRef)
      | none => some (mem, none)

end DoubleLinkedList

inductive AllocError where
  | EFATAL
  deriving DecidableEq

structure BumpAlloc where
  checkPoint : Nat
  current : Nat
  deriving DecidableEq

namespace BumpAlloc

def DEFAULT_SIZE : Nat := 0x100000000

def new : BumpAlloc := ⟨0, 0⟩

/-- `init` gives the unused rest of the last region back to the system and maps
a new region; `mapped` is what `mmap` returns, `usize::MAX` on failure. -/
def init (mapped : Nat) : BumpAlloc :=
  let start := if mapped = 2 ^ 64 - 1 then 0 else mapped
  ⟨start, start + DEFAULT_SIZE⟩

/-- The request rounded up to whole pages. -/
def allocSize (size : Nat) : Nat := (size + PG_SIZE - 1) / PG_SIZE * PG_SIZE

/-- The request does not fit into the current region. -/
def Exhausted (bump : BumpAlloc) (size : Nat) : Prop :=
  bump.checkPoint + allocSize size > bump.current

instance (bump : BumpAlloc) (size : Nat) : Decidable (bump.Exhausted size) :=
  inferInstanceAs (Decidable (_ > _))

def alloc (bump : BumpAlloc) (size mapped : Nat) : BumpAlloc × Except AllocError Nat :=
  let bump := if bump.Exhausted size then init mapped else bump
  if allocSize size ≤ bump.current then
    ({ bump with current := bump.current - allocSize size }, .ok (bump.current - allocSize size))
  else (bump, .error .EFATAL)

end BumpAlloc

/-- The memory, the radix tree, the heads of `FREELIST` and `BUMP`. The array of
heads is allocated on first use with every head empty. -/
structure Heap where
  mem : Mem
  tree : RadixTree
  lists : Nat → Option Nat
  bump : BumpAlloc

/-- Nothing mapped, nothing free; the memory is arbitrary. -/
def Heap.new (mem : Mem) : Heap := ⟨mem, TreeNode.zeroed, fun _ => none, BumpAlloc.new⟩

/-- The tag of the runs of list `idx`, `(-(idx as i64 + 1)) << 48`. -/
def tag (idx : Nat) : Int := Int.bmod (-(idx + 1) * 2 ^ 48) (2 ^ 64)

/-- `-(v >> 48)`: the number of pages if `v` is a tag. -/
def flag (v : Int) : Int := -(v >>> (48 : Nat))

open DoubleLinkedList

def removeOne (h : Heap) (idx : Nat) : Option (Heap × Option Nat) :=
  if BACKEND_MAX_PAGE ≤ idx then none
  else
    match h.lists idx with
    | none => some (h, none)
    | some ans => do
        let tree ← TreeNode.remove h.tree (pageKey ans) 1
        let tree ← TreeNode.remove tree (pageKey (ans + idx * PG_SIZE)) 1
        let (mem, head) ← removeCurrent h.mem ans
        some ({ h with mem, tree, lists := Function.update h.lists idx head }, some ans)

def removeSpecOne (h : Heap) (idx ptr : Nat) : Option (Heap × Option Nat) :=
  if BACKEND_MAX_PAGE ≤ idx then none
  else do
    let v ← TreeNode.getMut h.tree (pageKey ptr)
    if -v > 0 then
      let target ← getRef ptr
      match readNext h.mem target with
      | some prevNext =>
          if prevNext = ptr then
            let tree ← TreeNode.remove h.tree (pageKey ptr) 1
            let tree ← TreeNode.remove tree (pageKey (ptr + idx * PG_SIZE)) 1
            let (mem, newHead) ← removeCurrent h.mem target
            let lists := match newHead with
              | some head => Function.update h.lists idx (some head)
              | none => h.lists
            some ({ h with mem, tree, lists }, some ptr)
          else some (h, none)
      | none => some (h, none)
    else some (h, none)

def insertOne (h : Heap) (idx node : Nat) : Option Heap :=
  if BACKEND_MAX_PAGE ≤ idx then none
  else do
    let mem ← pushLocked h.mem (h.lists idx) node
    let tree ← TreeNode.insert h.tree (pageKey node) (tag idx) 1
    let tree ← TreeNode.insert tree (pageKey (node + idx * PG_SIZE)) (tag idx) 1
    some { h with mem, tree, lists := Function.update h.lists idx (some node) }

/-- A new node is written into the run before it is inserted. -/
def insertNew (h : Heap) (idx node : Nat) : Option Heap := do
  let ptr ← getRef node
  insertOne { h with mem := writeNew h.mem ptr } idx ptr

/-- `(size + PG_SIZE - 1) / PG_SIZE - 1`: the list a request of `size` bytes is
served from. The subtraction underflows for `size = 0`. -/
def originSize (size : Nat) : Nat := (size + PG_SIZE - 1) / PG_SIZE - 1

namespace DoubleLinkedList

variable (mem : Mem) {a b : Nat} (v : Option Nat)

@[simp] theorem readPrev_writePrev : readPrev (writePrev mem a v) a = v := by
  simp [readPrev, writePrev]

@[simp] theorem readNext_writeNext : readNext (writeNext mem a v) a = v := by
  simp [readNext, writeNext]

@[simp] theorem readPrev_writeNext : readPrev (writeNext mem a v) a = readPrev mem a :=
  Mem.readOption_writeOption_of_ne mem v (by omega) (by omega) (by omega)

@[simp] theorem readNext_writePrev : readNext (writePrev mem a v) a = readNext mem a :=
  Mem.readOption_writeOption_of_ne mem v (by omega) (by omega) (by omega)

/-- Nodes of different pages do not share words. -/
def PageApart (a b : Nat) : Prop := a % PG_SIZE = 0 ∧ b % PG_SIZE = 0 ∧ a ≠ b

variable {v}

theorem readPrev_writePrev_of_ne (h : PageApart a b) :
    readPrev (writePrev mem a v) b = readPrev mem b := by
  obtain ⟨ha, hb, hne⟩ := h
  simp only [PG_SIZE] at ha hb
  exact Mem.readOption_writeOption_of_ne mem v (by omega) (by omega) (by omega)

theorem readPrev_writeNext_of_ne (h : PageApart a b) :
    readPrev (writeNext mem a v) b = readPrev mem b := by
  obtain ⟨ha, hb, hne⟩ := h
  simp only [PG_SIZE] at ha hb
  exact Mem.readOption_writeOption_of_ne mem v (by omega) (by omega) (by omega)

theorem readNext_writePrev_of_ne (h : PageApart a b) :
    readNext (writePrev mem a v) b = readNext mem b := by
  obtain ⟨ha, hb, hne⟩ := h
  simp only [PG_SIZE] at ha hb
  exact Mem.readOption_writeOption_of_ne mem v (by omega) (by omega) (by omega)

theorem readNext_writeNext_of_ne (h : PageApart a b) :
    readNext (writeNext mem a v) b = readNext mem b := by
  obtain ⟨ha, hb, hne⟩ := h
  simp only [PG_SIZE] at ha hb
  exact Mem.readOption_writeOption_of_ne mem v (by omega) (by omega) (by omega)

/-- Writing a link changes words of the node's page only. -/
theorem writePrev_of_page (ha : a % PG_SIZE = 0) {x : Nat} (hx : x / PG_SIZE ≠ a / PG_SIZE) :
    writePrev mem a v x = mem x := by
  simp only [PG_SIZE] at ha hx
  exact Mem.writeOption_of_ne mem v (by omega) (by omega)

theorem writeNext_of_page (ha : a % PG_SIZE = 0) {x : Nat} (hx : x / PG_SIZE ≠ a / PG_SIZE) :
    writeNext mem a v x = mem x := by
  simp only [PG_SIZE] at ha hx
  exact Mem.writeOption_of_ne mem v (by omega) (by omega)

theorem getRef_of_pos (ha : 0 < a) : getRef a = some a := if_neg (by omega)

end DoubleLinkedList

theorem tag_eq {idx : Nat} (hidx : idx < BACKEND_MAX_PAGE) : tag idx = -(idx + 1) * 2 ^ 48 := by
  simp only [BACKEND_MAX_PAGE] at hidx
  exact Int.bmod_eq_of_le (by norm_num; omega) (by norm_num; omega)

theorem tag_neg {idx : Nat} (hidx : idx < BACKEND_MAX_PAGE) : tag idx < 0 := by
  rw [tag_eq hidx]
  omega

theorem flag_tag {idx : Nat} (hidx : idx < BACKEND_MAX_PAGE) : flag (tag idx) = idx + 1 := by
  rw [tag_eq hidx, flag, Int.shiftRight_eq_div_pow]
  omega

theorem tag_inj {i j : Nat} (hi : i < BACKEND_MAX_PAGE) (hj : j < BACKEND_MAX_PAGE)
    (h : tag i = tag j) : i = j := by
  have := congrArg flag h
  rw [flag_tag hi, flag_tag hj] at this
  omega

attribute [irreducible] tag

/-- Only negative values carry a positive flag. -/
theorem neg_of_flag_pos {v : Int} (h : 0 < flag v) : v < 0 := by
  rw [flag, Int.shiftRight_eq_div_pow] at h
  omega

end UniAlloc.FreeList
