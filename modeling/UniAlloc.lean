import UniAlloc.Mpmc.Sequential
import UniAlloc.Mpmc.Progress
import UniAlloc.Linked.Doubly
import UniAlloc.Ledger.Basic
import UniAlloc.Radix.Range
import UniAlloc.FreeList.Partition
import UniAlloc.FreeList.Coalescing
import UniAlloc.Collections.Rings
import UniAlloc.Linked.Segment
import UniAlloc.Slab.Reuse
import UniAlloc.Slab.Splice
import UniAlloc.SizeClass.Lookup
import UniAlloc.SizeClass.Pages
import UniAlloc.SizeClass.Generate
import UniAlloc.SizeClass.Mi
import UniAlloc.Cache.Drain
import UniAlloc.Cache.CpuCache
import UniAlloc.Cache.FixedBlocks
import UniAlloc.Cache.Realloc
import UniAlloc.Buddy.Checks
import UniAlloc.Buddy.Heap
import UniAlloc.Bump.Page
import UniAlloc.Bump.Meta
import UniAlloc.Bump.Failure
import UniAlloc.Locks.FixedHeap
import UniAlloc.FixedHeap.Bounds
import UniAlloc.FixedHeap.Conservation
import UniAlloc.FixedHeap.Tables
import UniAlloc.Bitmap.RangeSums
import UniAlloc.Bitmap.LazySegTree
import UniAlloc.Bitmap.Page4K
import UniAlloc.Bitmap.Covers
import UniAlloc.Separate.Misuse
import UniAlloc.Statics.ThreadExit
import UniAlloc.Cache.FreeListBuild
import UniAlloc.PerCpu.Conservation
import UniAlloc.Radix.Linearizable
import UniAlloc.Radix.Wide
import UniAlloc.Locks.DefaultBuild
import UniAlloc.Cache.Alignment
import UniAlloc.Store.Basic
import UniAlloc.Cache.FreeListStore
import UniAlloc.Buddy.Objects
