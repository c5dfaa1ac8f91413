import UniAlloc.Cache.Conservation
import UniAlloc.Slab.FreeListBackend

/-!
# The default build over its own page backend

Thread caches, slab allocators, free lists, `BUMP`: the pages the allocator takes from `mmap`
and the chunks it cuts them into, from the top to the bottom.
-/

namespace UniAlloc.Cache

open FreeList Slab Radix Transition

variable {ι : Type} [DecidableEq ι] [Fintype ι] {s : State ι Backing}

/-- No class asks for more pages than the lists can take back. -/
theorem tcSizeClass_pages_le (idx : Nat) :
    tcSizeClass.getNumPagesByIdx idx ≤ BACKEND_MAX_PAGE :=
  getD_le_of_forall (by decide) idx

end UniAlloc.Cache
