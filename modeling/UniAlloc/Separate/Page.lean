import Mathlib.Data.List.Nodup
import UniAlloc.Slab.Basic
import UniAlloc.Words.Basic

/-!
# Pages with a bitmap

The separate slab allocator keeps the chunks of a page in a bitmap outside the page. An
`ObjectPage` counts the chunks that are out, and every operation on it gets the slice of the
bitmap that belongs to the page. A panic is `none`, and so is an error that the callers
expect not to see.
-/

namespace UniAlloc.Separate

open Slab (PAGE_SIZE)

/-- A `u32`. -/
abbrev U32 := BitVec 32

structure ObjectPage where
  counter : Nat
  data : Nat
  deriving DecidableEq

/-- What the inner loop of `first_fit` ends with: a chunk, the end of the page, or the next
word. -/
inductive Fit where
  | found (idx addr : Nat) (bitval : U32)
  | stop
  | next

namespace ObjectPage

def new : ObjectPage := ⟨0, 0⟩

def isFull (page : ObjectPage) (pgCount : Nat) : Bool := pgCount ≤ page.counter

def isEmpty (page : ObjectPage) : Bool := page.counter = 0

/-- The subtraction in `addr & (align - 1) == 0` wraps. -/
def alignmentOk (addr align : Nat) : Bool := addr &&& (align + (2 ^ 64 - 1)) % 2 ^ 64 = 0

section FirstFit

variable (baseAddr align pgCount pgAlign pgNum : Nat)

/-- The inner loop of `first_fit`, which has `32 - first_free` rounds. -/
def fitWord (baseIdx : Nat) (bitval : U32) : Nat → Nat → Fit
  | 0, _ => .next
  | fuel + 1, firstFree =>
      let idx := baseIdx * 32 + firstFree
      if pgCount < idx then .stop
      else
        let offset := idx * pgAlign
        if PAGE_SIZE * pgNum < offset + pgAlign then .stop
        else
          let addr := baseAddr + offset
          if alignmentOk addr align ∧ ¬bitval.getLsbD firstFree then
            .found idx addr (bitval ||| 1#32 <<< firstFree)
          else fitWord baseIdx bitval fuel (firstFree + 1)

/-- The chunk that has been found, its address, and the words from `base_idx` on. -/
def firstFit : Nat → List U32 → Option (Nat × Nat × List U32)
  | _, [] => none
  | baseIdx, bitval :: rest =>
      let firstFree := Words.trailingOnes bitval
      let fit := if bitval = BitVec.allOnes 32 then .next
        else fitWord baseAddr align pgCount pgAlign pgNum baseIdx bitval (32 - firstFree) firstFree
      match fit with
      | .found idx addr bitval => some (idx, addr, bitval :: rest)
      | .stop => none
      | .next => (firstFit (baseIdx + 1) rest).map fun r => (r.1, r.2.1, bitval :: r.2.2)

end FirstFit

/-- The address is null if there is no chunk. -/
def allocate (page : ObjectPage) (align : Nat) (bitfield : List U32) (pgCount pgAlign pgNum : Nat) :
    ObjectPage × List U32 × Nat :=
  if pgCount ≤ page.counter then (page, bitfield, 0)
  else
    match firstFit page.data align pgCount pgAlign pgNum 0 bitfield with
    | some (_, addr, bitfield) => ({ page with counter := page.counter + 1 }, bitfield, addr)
    | none => (page, bitfield, 0)

/-- All bits are set, also those behind the last chunk. -/
def allocateAll (page : ObjectPage) (bitfield : List U32) (pgCount : Nat) :
    ObjectPage × List U32 × Nat :=
  ({ page with counter := pgCount }, bitfield.map fun _ => BitVec.allOnes 32, page.data)

section Batch

variable (data pgCount pgAlign count : Nat)

/-- The inner loop of `allocate_batch`, with the chunks that have been allocated. It tells
whether the loop returns. -/
def takeWord (baseIdx : Nat) : Nat → Nat → U32 → List Nat → Bool × U32 × List Nat
  | 0, _, bitval, allocated => (false, bitval, allocated)
  | fuel + 1, firstFree, bitval, allocated =>
      if bitval.getLsbD firstFree then takeWord baseIdx fuel (firstFree + 1) bitval allocated
      else
        let idx := baseIdx * 32 + firstFree
        if pgCount ≤ idx then (true, bitval, allocated)
        else
          let addr := data + idx * pgAlign
          let bitval := bitval ||| 1#32 <<< firstFree
          let allocated := allocated ++ [addr]
          if count ≤ allocated.length then (true, bitval, allocated)
          else takeWord baseIdx fuel (firstFree + 1) bitval allocated

/-- The outer loop of `allocate_batch`. -/
def takeWords : Nat → List U32 → List Nat → List U32 × List Nat
  | _, [], allocated => ([], allocated)
  | baseIdx, bitval :: rest, allocated =>
      let firstFree := Words.trailingOnes bitval
      let (done, bitval, allocated) :=
        if bitval = BitVec.allOnes 32 then (false, bitval, allocated)
        else takeWord data pgCount pgAlign count baseIdx (32 - firstFree) firstFree bitval allocated
      if done then (bitval :: rest, allocated)
      else
        let (rest, allocated) := takeWords (baseIdx + 1) rest allocated
        (bitval :: rest, allocated)

end Batch

/-- The chunks go to `res_array[start..]`, in this order. -/
def allocateBatch (page : ObjectPage) (count : Nat) (bitfield : List U32) (pgCount pgAlign : Nat) :
    Option (ObjectPage × List U32 × List Nat) :=
  if pgCount ≤ page.counter then none
  else
    let (bitfield, allocated) := takeWords page.data pgCount pgAlign count 0 bitfield []
    some ({ page with counter := page.counter + allocated.length }, bitfield, allocated)

/-- A chunk that is not out is an error. -/
def deallocate (page : ObjectPage) (ptr : Nat) (bitfield : List U32) (pgAlign : Nat) :
    Option (ObjectPage × List U32) :=
  let num := (ptr - page.data) / pgAlign
  if page.data ≤ ptr ∧ num / 32 < bitfield.length ∧ Words.bit bitfield num ∧ 0 < page.counter then
    some ({ page with counter := page.counter - 1 }, Words.clearBit bitfield num)
  else none

/-- The addresses that `deallocate_batch` looks at before it breaks. -/
def InPage (data pgNum ptr : Nat) : Prop := ¬(ptr < data ∨ pgNum * PAGE_SIZE ≤ ptr - data)

instance (data pgNum ptr : Nat) : Decidable (InPage data pgNum ptr) :=
  inferInstanceAs (Decidable ¬_)

/-- The loop of `deallocate_batch`. -/
def freeWhile (data pgAlign pgNum : Nat) : List Nat → List U32 → Nat → Option (List U32 × Nat)
  | [], bitfield, ans => some (bitfield, ans)
  | ptr :: rest, bitfield, ans =>
      if InPage data pgNum ptr then
        let num := (ptr - data) / pgAlign
        if num / 32 < bitfield.length ∧ Words.bit bitfield num then
          freeWhile data pgAlign pgNum rest (Words.clearBit bitfield num) (ans + 1)
        else none
      else some (bitfield, ans)

def deallocateBatch (page : ObjectPage) (resArray : List Nat) (bitfield : List U32)
    (pgAlign pgNum : Nat) : Option (ObjectPage × List U32 × Nat) := do
  let (bitfield, ans) ← freeWhile page.data pgAlign pgNum resArray bitfield 0
  if ans ≤ page.counter then
    some ({ page with counter := page.counter - ans }, bitfield, ans)
  else none

end ObjectPage

end UniAlloc.Separate
