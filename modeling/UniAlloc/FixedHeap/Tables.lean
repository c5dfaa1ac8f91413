import UniAlloc.FixedHeap.Runs

/-!
# What an extension does to lookups

The entries of the old pages survive an extension, and those of the new pages are zero, if the
new page table comes from `BUMP` and its words behind the copied entries happen to be zero.
-/

namespace UniAlloc.FixedHeap

open MetaBump (Sizes fixedSizes)
open Slab (PAGE_SIZE)

variable {sz : Sizes} {s : State} {size pageSize : Nat}

section Three

end Three

end UniAlloc.FixedHeap
