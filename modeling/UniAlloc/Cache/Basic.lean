import UniAlloc.SizeClass.Basic

/-!
# The thread cache

A unit of the thread cache serves one size class: a list of free chunks linked
through their first words, and a row of chunks that have not been touched yet. When
both are exhausted it takes a batch of chunks from the slab allocator of the class;
when the thread ends it gives all its chunks back as one chain. A panic is `none`.
-/

namespace UniAlloc.Cache

open Slab

structure Linklist where
  link : Nat
  length : Nat
  deriving DecidableEq

namespace Linklist

def new : Linklist := ⟨0, 0⟩

def pushUnchecked (list : Linklist) (mem : Mem) (ptr : Nat) : Linklist × Mem :=
  (⟨ptr, list.length + 1⟩, Function.update mem ptr list.link)

/-- The `while` loop of `pop_unchecked_aligned`: the first aligned node from `now` on,
with the node before it. A list of `length` nodes ends after that many rounds. -/
def seek (mem : Mem) (align : Nat) : Nat → Nat → Nat → Option (Nat × Nat)
  | 0, pre, now => if now = 0 then some (pre, now) else none
  | fuel + 1, pre, now =>
      if now = 0 ∨ now &&& align - 1 = 0 then some (pre, now)
      else seek mem align fuel now (mem now)

/-- Unlinks the first aligned node. The answer is null if there is none. -/
def popUncheckedAligned (list : Linklist) (mem : Mem) (align : Nat) :
    Option (Linklist × Mem × Nat) :=
  if list.length = 0 then some (list, mem, 0)
  else
    let result := list.link
    if result = 0 then none
    else if result &&& align - 1 = 0 then some (⟨mem result, list.length - 1⟩, mem, result)
    else do
      let (pre, now) ← seek mem align list.length result (mem result)
      if now = 0 then some (list, mem, 0)
      else some (⟨list.link, list.length - 1⟩, Function.update mem pre (mem now), now)

end Linklist

structure ThreadCacheUnit where
  list : Linklist
  bumpPtr : Nat
  bumpCount : Int
  bumpUnit : Int
  deriving DecidableEq

namespace ThreadCacheUnit

def new : ThreadCacheUnit := ⟨Linklist.new, 0, 0, 0⟩

variable (unit : ThreadCacheUnit) (mem : Mem)

def free (ptr : Nat) : ThreadCacheUnit × Mem :=
  let (list, mem) := unit.list.pushUnchecked mem ptr
  ({ unit with list }, mem)

/-- The end of both loop bodies: on to the next chunk of the row. -/
def advance : ThreadCacheUnit :=
  { unit with
    bumpPtr := unit.bumpPtr + asUsize unit.bumpUnit
    bumpCount := unit.bumpCount - 1 }

/-- The `while` loop of `clean_up`. -/
def flushLoop : Nat → ThreadCacheUnit → Mem → ThreadCacheUnit × Mem
  | 0, unit, mem => (unit, mem)
  | n + 1, unit, mem =>
      let (unit, mem) := unit.free mem unit.bumpPtr
      flushLoop n unit.advance mem

/-- The first half of `clean_up`: the row of untouched chunks joins the list. -/
def flush : ThreadCacheUnit × Mem := flushLoop unit.bumpCount.toNat unit mem

def deallocate (ptr : Nat) : ThreadCacheUnit × Mem := unit.free mem ptr

/-- The `while` loop of `allocate`: the first aligned chunk of the row. The chunks
before it join the list. -/
def bumpLoop (align : Nat) : Nat → ThreadCacheUnit → Mem → Nat → ThreadCacheUnit × Mem × Nat
  | 0, unit, mem, ans => (unit, mem, ans)
  | n + 1, unit, mem, ans =>
      if ans = 0 then
        if unit.bumpPtr &&& align - 1 = 0 then
          bumpLoop align n unit.advance mem unit.bumpPtr
        else
          let (unit, mem) := unit.free mem unit.bumpPtr
          bumpLoop align n unit.advance mem ans
      else (unit, mem, ans)

/-- Cases 1 and 2 of `allocate`: a chunk of the list or of the row. The answer is null
if there is no aligned one. -/
def allocateLocal (align : Nat) : Option (ThreadCacheUnit × Mem × Nat) := do
  let (list, mem, ans) ←
    (if 0 < unit.list.length then unit.list.popUncheckedAligned mem align
    else some (unit.list, mem, 0))
  if ans ≠ 0 then some ({ unit with list }, mem, ans)
  else some (bumpLoop align unit.bumpCount.toNat { unit with list } mem 0)

/-- The end of `allocate`: the first chunk of a batch is the answer, the others become
the row or the list of the unit. -/
def install : Nat × Nat × Option Nat → Option (ThreadCacheUnit × Nat)
  | (ptr, n, some bump) =>
      if ptr = 0 then none
      else
        some ({ unit with
          bumpCount := asI32 (n - 1), bumpUnit := asI32 bump, bumpPtr := ptr + bump }, ptr)
  | (ptr, n, none) =>
      if unit.list.length ≠ 0 ∨ ptr = 0 then none
      else some ({ unit with list := ⟨mem ptr, n - 1⟩ }, ptr)

end ThreadCacheUnit

end UniAlloc.Cache
