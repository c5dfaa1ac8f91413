import UniAlloc.Cache.System
import UniAlloc.Cache.Unit
import UniAlloc.Ledger.Basic
import UniAlloc.SizeClass.Rounding
import UniAlloc.Slab.Chunks

/-!
# The invariant of the thread caches

The chunks that have left a slab allocator are shared out among the live blocks and
the units of the threads: for every class these holdings add up to the chunks that
are out, each once.
-/

namespace UniAlloc.Cache

open Slab Ledger Radix

variable {ι σ : Type} [DecidableEq ι] [Fintype ι]

/-- What the slab allocator of a class is created with. -/
def configs (C : SizeClasses) (idx : Nat) : Config := Config.of (slabsNew C idx)

/-- A class of requests of at least one byte. -/
def IsClass (C : SizeClasses) (idx : Nat) : Prop := 0 < idx ∧ idx < C.TOTAL_SIZE_CLASS

section Configs

variable {C : SizeClasses} {idx : Nat}

theorem configs_ok (sound : C.Sound) (hidx : IsClass C idx) : (configs C idx).Ok :=
  SCAllocator.config_ok (sound.size_pos idx hidx.1 hidx.2) (sound.size_le idx hidx.1 hidx.2)
    ((sound.pages_le idx).trans (by decide))

theorem configs_eq (sound : C.Sound) (hidx : IsClass C idx) :
    configs C idx = ⟨C.getNumPagesByIdx idx,
      SCAllocator.chunkCount (C.getRoundedSizeByIdx idx) (C.getNumPagesByIdx idx),
      SCAllocator.chunkAlign (C.getRoundedSizeByIdx idx) (C.getNumPagesByIdx idx)⟩ :=
  SCAllocator.config_of_new (sound.size_pos idx hidx.1 hidx.2) (sound.size_le idx hidx.1 hidx.2)
    ((sound.pages_le idx).trans (by decide))

/-- A chunk has room for the size of its class. -/
theorem size_le_align (sound : C.Sound) (hidx : IsClass C idx) :
    C.getRoundedSizeByIdx idx ≤ (configs C idx).align := by
  rw [configs_eq sound hidx]
  exact (SCAllocator.chunkAlign_spec (sound.size_pos idx hidx.1 hidx.2)
    (sound.size_le idx hidx.1 hidx.2)).1

theorem configs_pgNum (sound : C.Sound) (hidx : IsClass C idx) :
    (configs C idx).pgNum = C.getNumPagesByIdx idx := by
  rw [configs_eq sound hidx]

/-- The runs of the classes can be anywhere. -/
theorem configs_fits (sound : C.Sound) {block : FreeList.Block}
    (hnum : block.num = (configs C idx).pgNum) : RadixFits block := by
  refine radixFits_of_le ?_
  rw [hnum, configs, slabsNew, SCAllocator.new, Config.of]
  split
  · exact Nat.zero_le _
  · exact sound.pages_le idx

/-- The counts and strides of the classes fit into an `i32`. -/
theorem configs_lt (sound : C.Sound) (hidx : IsClass C idx) :
    (configs C idx).count < 2 ^ 31 ∧ (configs C idx).align < 2 ^ 31 := by
  have ok := configs_ok sound hidx
  have hnum := sound.pages_le idx
  have hfits := ok.fits
  rw [configs_pgNum sound hidx, PAGE_SIZE] at hfits
  have hcount := Nat.le_mul_of_pos_right (configs C idx).count ok.align_pos
  have halign := Nat.le_mul_of_pos_left (configs C idx).align ok.count_pos
  constructor <;> norm_num <;> omega

end Configs

/-- A build keeps its promises: what a batch does, and that requests are rounded up. -/
structure Build.Sound (b : Build σ) (Holds : σ → Mem → RadixTree → Set FreeList.Block → Prop)
    (request : Nat → Prop) : Prop where
  law : Lawful b.backend Holds
  classes : b.classes.Sound
  rounds : ∀ size, request size → ∃ idx, b.classes.Rounds size idx
  batch {slabs : Nat → SCAllocator} {h : Heap σ} {g : Ghost Nat} {idx : Nat} (align : Nat)
    {mapped : Nat} : Slab.Inv (configs b.classes) Holds slabs h g → IsClass b.classes idx →
    b.maps h mapped →
    (∃ slab' h' ptr n stride g' l, b.allocateBatch (slabs idx) h align mapped =
        some (slab', h', ptr, n, stride) ∧
      Slab.Inv (configs b.classes) Holds (Function.update slabs idx slab') h' g' ∧
      Granted (configs b.classes) h h' g g' idx ptr n stride l ∧ (stride = none → align = 1)) ∨
    b.allocateBatch (slabs idx) h align mapped = none ∧
      b.exhausted h (configs b.classes idx).pgNum

theorem defaultBuild_sound {B : PageBackend σ}
    {Holds : σ → Mem → RadixTree → Set FreeList.Block → Prop} (law : Lawful B Holds) :
    (defaultBuild B).Sound Holds (SmallRequest tcSizeClass) where
  law := law
  classes := tcSizeClass_sound
  rounds size hsize := tcSizeClass_rounds hsize.1 hsize.2
  batch align mapped inv hidx fresh := by
    exact allocate_spec law inv align (fun _ _ _ => fresh) fun _ _ ptr r _ =>
      ⟨configs_ok tcSizeClass_sound hidx, (configs_fits tcSizeClass_sound rfl).1⟩

/-- The class that serves a block. -/
def InClass (C : SizeClasses) (idx : Nat) (block : Live) : Prop :=
  C.getSizeClass block.layout.size = .base idx

instance (C : SizeClasses) (idx : Nat) : DecidablePred (InClass C idx) :=
  fun _ => inferInstanceAs (Decidable (_ = _))

/-- The chunks of the live blocks of a class. -/
def liveChunks (C : SizeClasses) (live : Multiset Live) (idx : Nat) : Multiset Nat :=
  (live.filter (InClass C idx)).map Live.ptr

/-- What is known of the units of a thread at a program point. -/
def PcOk (C : SizeClasses) (request : Nat → Prop) (units : Nat → ThreadCacheUnit)
    (nodes : Nat → List Nat) : Pc → Prop
  | .idle => True
  | .refill idx layout => C.getSizeClass layout.size = .base idx ∧ request layout.size ∧
      (units idx).row = [] ∧ (layout.align = 1 → nodes idx = [])
  | .cleaning idx => 0 < idx ∧ ∀ k < idx, units k = ThreadCacheUnit.new
  | .returning idx => IsClass C idx ∧ (units idx).row = [] ∧
      ∀ k < idx, units k = ThreadCacheUnit.new
  | .exited => ∀ k, units k = ThreadCacheUnit.new

structure Inv (b : Build σ) (Holds : σ → Mem → RadixTree → Set FreeList.Block → Prop)
    (request : Nat → Prop) (s : State ι σ) (g : Ghost Nat) (nodes : ι → Nat → List Nat) :
    Prop where
  slab : Slab.Inv (configs b.classes) Holds s.slabs s.heap g
  lists : ∀ t k, (s.caches t k).Lists s.heap.mem (nodes t k)
  total : ∀ k, liveChunks b.classes s.live k + ∑ t, (s.caches t k).share (nodes t k) =
    (g.out k).val
  unused : ∀ t k, ¬IsClass b.classes k → s.caches t k = ThreadCacheUnit.new
  live : ∀ block ∈ s.live, request block.layout.size
  pcs : ∀ t, PcOk b.classes request (s.caches t) (nodes t) (s.pc t)

end UniAlloc.Cache
