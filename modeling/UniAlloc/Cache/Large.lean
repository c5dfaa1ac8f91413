import UniAlloc.Cache.Calls
import UniAlloc.Cache.FixedBlocks
import UniAlloc.SizeClass.Lookup

/-!
# Large blocks of the default build

Large blocks go past the caches: they are whole runs of pages, taken from the backend
that also supplies the slab allocators. The state of the backend records them, in the
way in which it does so with a fixed heap; the regions of `PG_BUMP` are not among its
runs here.
-/

namespace UniAlloc

/-- `SizeClass::index`. -/
def SizeClass.index : SizeClass → Nat
  | .base cl => cl
  | .large cl => cl

namespace Cache

open FreeList Radix Slab Transition

section Backend

variable {σ : Type} {B : PageBackend σ} {Holds : σ → Mem → RadixTree → Set Block → Prop}
  {large : List Block} {content : Mem} {back : FixedBack σ} {mem : Mem} {tree : RadixTree}
  {held : Set Block}

/-- The large blocks are `large`, and their memory is as in `content`. -/
structure LargeHolds (Holds : σ → Mem → RadixTree → Set Block → Prop) (large : List Block)
    (content : Mem) (back : FixedBack σ) (mem : Mem) (tree : RadixTree) (held : Set Block) :
    Prop where
  holds : FixedHolds Holds back mem tree held
  regions : back.regions = []
  large_eq : back.large = large
  content_eq : ∀ b ∈ large, ∀ a, a / PG_SIZE ∈ b.pages → mem a = content a

theorem LargeHolds.mem_own (h : LargeHolds Holds large content back mem tree held) {b : Block} :
    b ∈ back.own ↔ b ∈ large := by
  rw [FixedBack.own, h.regions, h.large_eq]
  rfl

/-- The memory of the large blocks stays as it is whatever the slab allocators do. -/
theorem largeBackend_lawful (law : Lawful B Holds) :
    Lawful (fixedBackend B) (LargeHolds Holds large content) where
  placed h := (fixedBackend_lawful law).placed h.holds
  apart h := (fixedBackend_lawful law).apart h.holds
  tags h := (fixedBackend_lawful law).tags h.holds
  use h hmem htree := by
    refine ⟨(fixedBackend_lawful law).use h.holds hmem htree, h.regions, h.large_eq, ?_⟩
    intro b hb a ha
    rw [hmem a (h.holds.own_off law (h.mem_own.mpr hb) ha)]
    exact h.content_eq b hb a ha
  alloc {back mem tree held num ptr back' mem' tree'} h hnum hcall := by
    obtain ⟨holds, hnew, hsame, hzero⟩ := (fixedBackend_lawful law).alloc h.holds hnum hcall
    obtain ⟨⟨ptr, inner, mem', tree'⟩, hinner, hcall⟩ := Option.bind_eq_some_iff.mp hcall
    cases hcall
    have same := (law.alloc h.holds.inner hnum hinner).2.2.1
    refine ⟨⟨holds, h.regions, h.large_eq, fun b hb a ha => ?_⟩, hnew, hsame, hzero⟩
    rw [same.mem a ⟨b, .inr (h.mem_own.mpr hb), ha⟩]
    exact h.content_eq b hb a ha
  dealloc {back mem tree held b} h hb hzero := by
    obtain ⟨back', mem', tree', hcall, holds, hsame⟩ :=
      (fixedBackend_lawful law).dealloc h.holds hb hzero
    have hcall' := hcall
    obtain ⟨⟨inner, mem'', tree''⟩, hinner, hcall'⟩ := Option.bind_eq_some_iff.mp hcall'
    cases hcall'
    obtain ⟨_, _, _, hinner', -, same⟩ := law.dealloc h.holds.inner (.inl hb) hzero
    cases hinner.symm.trans hinner'
    refine ⟨_, _, _, hcall, ⟨holds, h.regions, h.large_eq, fun c hc a ha => ?_⟩, hsame⟩
    have hown := h.mem_own.mpr hc
    have hne : c ≠ b := fun e => h.holds.off c hown (e ▸ hb)
    rw [same.mem a ⟨c, ⟨.inr hown, hne⟩, ha⟩]
    exact h.content_eq c hc a ha

end Backend

/-- The pages of a request. -/
def numPages (size : Nat) : Nat := (size + PAGE_SIZE - 1) / PAGE_SIZE

/-- The run of pages of a large block. -/
def Live.run (block : Live) : Block := ⟨block.ptr, numPages block.layout.size⟩

/-- The backend works in whole pages. -/
def Rounds {σ : Type} (B : PageBackend σ) : Prop :=
  ∀ s mem tree size, 0 < size →
    B.alloc s mem tree size = B.alloc s mem tree (PAGE_SIZE * numPages size) ∧
    ∀ ptr, B.dealloc s mem tree ptr size = B.dealloc s mem tree ptr (PAGE_SIZE * numPages size)

/-- The default build over a backend that also supplies the large blocks. -/
abbrev largeBuild {σ : Type} (B : PageBackend σ) : Build (FixedBack σ) :=
  defaultBuild (fixedBackend B)

theorem largeBuild_sound {σ : Type} {B : PageBackend σ}
    {Holds : σ → Mem → RadixTree → Set Block → Prop} (law : Lawful B Holds) (large : List Block)
    (content : Mem) :
    (largeBuild B).Sound (LargeHolds Holds large content) (SmallRequest tcSizeClass) :=
  defaultBuild_sound (largeBackend_lawful law)

/-- The caches, with the small blocks, and the large blocks. -/
structure RustState (ι σ : Type) where
  cache : State ι (FixedBack σ)
  big : Multiset Live

/-- `ptr::copy_nonoverlapping`. -/
def copyNonoverlapping (mem : Mem) (src dst count : Nat) : Mem := fun a =>
  if dst ≤ a ∧ a < dst + count then mem (src + (a - dst)) else mem a

namespace RustState

variable {ι σ : Type} [DecidableEq ι]

def new (mem : Mem) (back : σ) : RustState ι σ :=
  ⟨State.new tcSizeClass (Heap.new mem ⟨back, PageBumpAlloc.new, [], []⟩), 0⟩

variable (B : PageBackend σ) (r : RustState ι σ) (t : ι)

/-- The live blocks. -/
def blocks : Multiset Live := r.cache.live + r.big

def mem : Mem := r.cache.heap.mem

def setMem (mem : Mem) : RustState ι σ :=
  { r with cache := { r.cache with heap := { r.cache.heap with mem } } }

/-- The runs of the large blocks. -/
def large : List Block := r.cache.heap.back.large

def setLarge (large : List Block) : RustState ι σ :=
  { r with
    cache := { r.cache with
      heap := { r.cache.heap with back := { r.cache.heap.back with large } } } }

/-- A block has been allocated. A null pointer is no block. -/
def record (block : Live) : RustState ι σ :=
  if block.ptr = 0 then r
  else
    match tcSizeClass.getSizeClass block.layout.size with
    | .base _ => { r with cache := r.cache.addLive block }
    | .large _ => { r.setLarge (block.run :: r.large) with big := block ::ₘ r.big }

/-- A block gets another layout and stays where it is. -/
def relabel (block : Live) (layout : Layout) : RustState ι σ :=
  match tcSizeClass.getSizeClass block.layout.size with
  | .base _ =>
      { r with cache := { r.cache with live := ⟨block.ptr, layout⟩ ::ₘ r.cache.live.erase block } }
  | .large _ => { r with big := ⟨block.ptr, layout⟩ ::ₘ r.big.erase block }

omit [DecidableEq ι] in
theorem relabel_cache (block : Live) (layout : Layout) :
    (r.relabel block layout).cache =
      { r.cache with live := (r.relabel block layout).cache.live } := by
  rw [relabel]
  split <;> rfl

/-- `RustAllocator::alloc`. -/
def alloc (layout : Layout) (mapped : Nat) : Option (Nat × RustState ι σ) := do
  let (ptr, cache) ← r.cache.rustAlloc (largeBuild B) t layout id mapped
  some (ptr, { r with cache }.record ⟨ptr, layout⟩)

/-- `ZoneAllocator::deallocate_large`. -/
def deallocateLarge (block : Live) : Option (RustState ι σ) := do
  let (inner, mem, tree) ← B.dealloc r.cache.heap.back.inner r.cache.heap.mem r.cache.heap.tree
    block.ptr block.layout.size
  let back := { r.cache.heap.back with inner, large := r.large.erase block.run }
  some ⟨{ r.cache with heap := { r.cache.heap with back, mem, tree } }, r.big.erase block⟩

/-- `RustAllocator::dealloc`. -/
def dealloc (block : Live) : Option (RustState ι σ) :=
  match tcSizeClass.getSizeClass block.layout.size with
  | .base _ => do
      let cache ← r.cache.deallocate (largeBuild B) t block
      some { r with cache }
  | .large _ => r.deallocateLarge B block

/-- `RustAllocator::realloc`. -/
def realloc (block : Live) (newSize mapped : Nat) : Option (Nat × RustState ι σ) :=
  let oldIdx := (tcSizeClass.getSizeClass block.layout.size).index
  let newIdx := (tcSizeClass.getSizeClass newSize).index
  let newLayout := ⟨newSize, block.layout.align⟩
  if oldIdx = newIdx then some (block.ptr, r.relabel block newLayout)
  else do
    let (newPtr, r) ← r.alloc B t newLayout mapped
    if newPtr ≠ 0 then do
      let r := r.setMem
        (copyNonoverlapping r.mem block.ptr newPtr (min block.layout.size newSize))
      let r ← r.dealloc B t block
      some (newPtr, r)
    else some (newPtr, r)

end RustState

/-- The moves of the threads: those of the caches, and whole calls of the others. -/
inductive RustMove (ι : Type) where
  | small (t : ι) (m : Move)
  | alloc (t : ι) (layout : Layout)
  | dealloc (t : ι) (block : Live)
  /-- The program writes to a large block. -/
  | store (t : ι) (block : Live) (offset v : Nat)
  | realloc (t : ι) (block : Live) (newSize mapped : Nat)

/-- Sizes of at least one and at most `isize::MAX` bytes. -/
def LayoutSize (size : Nat) : Prop := 1 ≤ size ∧ size ≤ ISIZE_MAX

namespace RustState

variable {ι σ : Type} [DecidableEq ι] (B : PageBackend σ) (r : RustState ι σ)

def Enabled : RustMove ι → Prop
  | .small t m => r.cache.Enabled (largeBuild B) t (SmallRequest tcSizeClass) m
  | .alloc t layout =>
      r.cache.pc t = .idle ∧ tcSizeClass.MAX_SIZE < layout.size ∧ LayoutSize layout.size
  | .dealloc t block => r.cache.pc t = .idle ∧ block ∈ r.big
  | .store t block offset _ => r.cache.pc t = .idle ∧ block ∈ r.big ∧ offset < block.layout.size
  | .realloc t block newSize mapped => r.cache.pc t = .idle ∧ block ∈ r.blocks ∧
      LayoutSize newSize ∧ (largeBuild B).maps r.cache.heap mapped

/-- Large blocks are allocated and deallocated in one move, and so are blocks reallocated. -/
def exec : RustMove ι → Option (RustState ι σ)
  | .small t m => do
      let cache ← r.cache.exec (largeBuild B) t m
      some { r with cache }
  | .alloc t layout => do
      let (_, r) ← r.alloc B t layout 0
      some r
  | .dealloc t block => r.dealloc B t block
  | .store _ block offset v =>
      some (r.setMem (Function.update r.mem (block.ptr + offset) v))
  | .realloc t block newSize mapped => do
      let (_, r) ← r.realloc B t block newSize mapped
      some r

end RustState

/-- One thread makes one move. -/
def RustStep {ι σ : Type} [DecidableEq ι] (B : PageBackend σ) (r : RustState ι σ)
    (m : RustMove ι) (r' : RustState ι σ) : Prop :=
  r.Enabled B m ∧ r.exec B m = some r'

section Play

variable {ι σ : Type} [DecidableEq ι] (B : PageBackend σ) (r : RustState ι σ)

instance : DecidablePred LayoutSize := fun _ => inferInstanceAs (Decidable (_ ∧ _))

instance : (m : RustMove ι) → Decidable (r.Enabled B m)
  | .small t m =>
      inferInstanceAs (Decidable (r.cache.Enabled (largeBuild B) t (SmallRequest tcSizeClass) m))
  | .alloc t layout => inferInstanceAs (Decidable
      (r.cache.pc t = .idle ∧ tcSizeClass.MAX_SIZE < layout.size ∧ LayoutSize layout.size))
  | .dealloc t block => inferInstanceAs (Decidable (r.cache.pc t = .idle ∧ block ∈ r.big))
  | .store t block offset _ => inferInstanceAs (Decidable
      (r.cache.pc t = .idle ∧ block ∈ r.big ∧ offset < block.layout.size))
  | .realloc t block newSize mapped => inferInstanceAs (Decidable
      (r.cache.pc t = .idle ∧ block ∈ r.blocks ∧ LayoutSize newSize ∧
        (largeBuild B).maps r.cache.heap mapped))

/-- The step a move stands for, if it is possible. -/
def RustState.move (m : RustMove ι) : Option (RustMove ι × RustState ι σ) :=
  if r.Enabled B m then (r.exec B m).map fun r' => (m, r') else none

variable {B r}

theorem RustState.move_step {m : RustMove ι} {x : RustMove ι × RustState ι σ}
    (h : r.move B m = some x) : RustStep B r x.1 x.2 := by
  obtain ⟨enabled, h⟩ := Option.ite_none_right_eq_some.mp h
  obtain ⟨r', hexec, rfl⟩ := Option.map_eq_some_iff.mp h
  exact ⟨enabled, hexec⟩

end Play

section

variable {ι σ : Type} [Fintype ι] {B : PageBackend σ}
  {Holds : σ → Mem → RadixTree → Set Block → Prop} {r r' : RustState ι σ} {g g' : Ghost Nat}
  {nodes nodes' : ι → Nat → List Nat} {t : ι} {block c : Live}

/-- The invariant of the caches, with the large blocks at the side. -/
structure RustInv (B : PageBackend σ) (Holds : σ → Mem → RadixTree → Set Block → Prop)
    (r : RustState ι σ) (g : Ghost Nat) (nodes : ι → Nat → List Nat) : Prop where
  inv : Inv (largeBuild B) (FixedHolds Holds) (SmallRequest tcSizeClass) r.cache g nodes
  regions : r.cache.heap.back.regions = []
  large : (↑r.large : Multiset Block) = r.big.map Live.run
  sizes : ∀ c ∈ r.big, tcSizeClass.MAX_SIZE < c.layout.size

/-- The same invariant, with the large blocks and their memory fixed. -/
abbrev FixedLarge (B : PageBackend σ) (Holds : σ → Mem → RadixTree → Set Block → Prop)
    (large : List Block) (content : Mem) (cache : State ι (FixedBack σ)) (g : Ghost Nat)
    (nodes : ι → Nat → List Nat) : Prop :=
  Inv (largeBuild B) (LargeHolds Holds large content) (SmallRequest tcSizeClass) cache g nodes

theorem RustInv.fixed (rinv : RustInv B Holds r g nodes) :
    FixedLarge B Holds r.large r.mem r.cache g nodes :=
  { rinv.inv with
    slab := { rinv.inv.slab with
      holds := ⟨rinv.inv.slab.holds, rinv.regions, rfl, fun _ _ _ _ => rfl⟩ } }

/-- The caches have moved, and the large blocks are as before. -/
theorem RustInv.of_fixed (rinv : RustInv B Holds r g nodes) {cache : State ι (FixedBack σ)}
    (fixed : FixedLarge B Holds r.large r.mem cache g' nodes') :
    RustInv B Holds { r with cache } g' nodes' ∧
      ∀ b ∈ r.large, ∀ a, a / PG_SIZE ∈ b.pages → cache.heap.mem a = r.mem a := by
  have holds := fixed.slab.holds
  refine ⟨⟨{ fixed with slab := { fixed.slab with holds := holds.holds } }, holds.regions, ?_,
    rinv.sizes⟩, holds.content_eq⟩
  rw [← rinv.large]
  exact congrArg _ holds.large_eq

/-- The run of a large block is recorded. -/
theorem RustInv.run_mem (rinv : RustInv B Holds r g nodes) (hblock : block ∈ r.big) :
    block.run ∈ r.large := by
  have hmem : block.run ∈ (↑r.large : Multiset Block) :=
    rinv.large ▸ Multiset.mem_map_of_mem _ hblock
  exact Multiset.mem_coe.mp hmem

theorem RustInv.run_own (rinv : RustInv B Holds r g nodes) (hblock : block ∈ r.big) :
    block.run ∈ r.cache.heap.back.own :=
  List.mem_append_right _ (rinv.run_mem hblock)

theorem RustInv.run_placed (law : Lawful B Holds) (rinv : RustInv B Holds r g nodes)
    (hblock : block ∈ r.big) : block.run.Placed :=
  law.placed rinv.inv.slab.holds.inner (.inr (rinv.run_own hblock))

theorem RustInv.ptr_pos (law : Lawful B Holds) (rinv : RustInv B Holds r g nodes)
    (hblock : block ∈ r.blocks) : 0 < block.ptr := by
  obtain hsmall | hlarge := Multiset.mem_add.mp hblock
  · have sound := defaultBuild_sound (fixedBackend_lawful law)
    obtain ⟨idx, -, -, -, hout⟩ := rinv.inv.live_chunk sound hsmall
    exact rinv.inv.slab.out_pos sound.law hout
  · exact (rinv.run_placed law hlarge).pos

/-- The bytes of a large block lie in its run. -/
theorem Live.byte_page (placed : block.run.Placed) {a : Nat} (ha : block.Byte a) :
    a / PG_SIZE ∈ block.run.pages := by
  obtain ⟨haligned, -, -, -⟩ := placed
  obtain ⟨hlo, hhi⟩ := ha
  simp only [Live.run, numPages, PAGE_SIZE, PG_SIZE, Block.mem_pages] at haligned ⊢
  omega

/-- A byte of a small block lies in no large block. -/
theorem RustInv.small_off (law : Lawful B Holds) (rinv : RustInv B Holds r g nodes)
    (hblock : block ∈ r.cache.live) (hc : c ∈ r.big) {a : Nat} (ha : block.Byte a) :
    ¬c.Byte a := by
  intro ha'
  have sound := defaultBuild_sound (fixedBackend_lawful law)
  have held := (rinv.inv.live_byte sound hblock ha).1
  exact rinv.inv.slab.holds.own_off law (rinv.run_own hc)
    (Live.byte_page (rinv.run_placed law hc) ha') held

/-- Different large blocks have different runs. -/
theorem RustInv.run_ne (rinv : RustInv B Holds r g nodes) (hblock : block ∈ r.big)
    (hc : c ∈ r.big.erase block) : block.run ≠ c.run := by
  obtain ⟨rest, hrest⟩ := Multiset.exists_cons_of_mem hc
  have hbig : r.big = block ::ₘ c ::ₘ rest := by
    rw [← hrest, Multiset.cons_erase hblock]
  have nodup : (↑r.large : Multiset Block).Nodup :=
    Multiset.coe_nodup.mpr (List.nodup_append.mp rinv.inv.slab.holds.nodup).2.1
  rw [rinv.large, hbig, Multiset.map_cons, Multiset.map_cons] at nodup
  exact fun e => (Multiset.nodup_cons.mp nodup).1 (e ▸ Multiset.mem_cons_self _ _)

theorem RustInv.large_apart (law : Lawful B Holds) (rinv : RustInv B Holds r g nodes)
    (hblock : block ∈ r.big) (hc : c ∈ r.big.erase block) {a : Nat} (ha : block.Byte a) :
    ¬c.Byte a := by
  intro ha'
  have hcbig := Multiset.mem_of_mem_erase hc
  exact law.apart rinv.inv.slab.holds.inner (.inr (rinv.run_own hblock))
    (.inr (rinv.run_own hcbig)) (rinv.run_ne hblock hc) _
    (Live.byte_page (rinv.run_placed law hblock) ha)
    (Live.byte_page (rinv.run_placed law hcbig) ha')

/-- A block is small or large. -/
theorem RustInv.mem_blocks (rinv : RustInv B Holds r g nodes) (hblock : block ∈ r.blocks) :
    (block ∈ r.cache.live ∧ r.blocks.erase block = r.cache.live.erase block + r.big ∧
      block.layout.size ≤ tcSizeClass.MAX_SIZE) ∨
    (block ∈ r.big ∧ r.blocks.erase block = r.cache.live + r.big.erase block ∧
      tcSizeClass.MAX_SIZE < block.layout.size) := by
  obtain hsmall | hlarge := Multiset.mem_add.mp hblock
  · exact .inl ⟨hsmall, Multiset.erase_add_left_pos _ hsmall, (rinv.inv.live _ hsmall).2⟩
  · have hsize := rinv.sizes _ hlarge
    refine .inr ⟨hlarge, Multiset.erase_add_right_neg _ fun hsmall => ?_, hsize⟩
    exact absurd (rinv.inv.live _ hsmall).2 (not_le.mpr hsize)

theorem RustInv.byte_ptr (rinv : RustInv B Holds r g nodes) (hblock : block ∈ r.blocks) :
    block.Byte block.ptr := by
  refine ⟨le_rfl, Nat.lt_add_of_pos_right ?_⟩
  obtain hsmall | hlarge := Multiset.mem_add.mp hblock
  · exact (rinv.inv.live _ hsmall).1
  · exact Nat.zero_lt_of_lt (rinv.sizes _ hlarge)

/-- No two blocks have a byte in common. -/
theorem RustInv.apart (law : Lawful B Holds) (rinv : RustInv B Holds r g nodes)
    (hblock : block ∈ r.blocks) (hc : c ∈ r.blocks.erase block) {a : Nat} (ha : block.Byte a) :
    ¬c.Byte a := by
  intro ha'
  obtain ⟨hsmall, herase, -⟩ | ⟨hlarge, herase, -⟩ := rinv.mem_blocks hblock
  · obtain hc | hc := Multiset.mem_add.mp (herase ▸ hc)
    · obtain ⟨rest, hrest⟩ := Multiset.exists_cons_of_mem hc
      have hlive : r.cache.live = block ::ₘ c ::ₘ rest := by
        rw [← hrest, Multiset.cons_erase hsmall]
      have := rinv.inv.live_disjoint (defaultBuild_sound (fixedBackend_lawful law)) hlive
      obtain ⟨hlo, hhi⟩ := ha
      obtain ⟨hlo', hhi'⟩ := ha'
      omega
    · exact rinv.small_off law hsmall hc ha ha'
  · obtain hc | hc := Multiset.mem_add.mp (herase ▸ hc)
    · exact rinv.small_off law hc hlarge ha' ha
    · exact rinv.large_apart law hlarge hc ha ha'

/-- A block can be written to. -/
theorem RustInv.write (law : Lawful B Holds) (rinv : RustInv B Holds r g nodes)
    (hblock : block ∈ r.blocks) {mem : Mem} (same : ∀ a, ¬block.Byte a → mem a = r.mem a) :
    RustInv B Holds (r.setMem mem) g nodes := by
  have sound := defaultBuild_sound (fixedBackend_lawful law)
  refine ⟨?_, rinv.regions, rinv.large, rinv.sizes⟩
  obtain ⟨hsmall, -⟩ | ⟨hlarge, -⟩ := rinv.mem_blocks hblock
  · exact rinv.inv.write sound hsmall same
  · have holds := rinv.inv.slab.holds
    have hown := rinv.run_own hlarge
    have hpage : ∀ a, mem a ≠ r.mem a → a / PG_SIZE ∈ block.run.pages := fun a ha =>
      Live.byte_page (rinv.run_placed law hlarge) (by_contra fun h => ha (same a h))
    refine rinv.inv.backed sound ⟨fun a ha => ?_, fun _ _ => rfl⟩
      ⟨law.use holds.inner (fun a ha => ?_) fun _ => .inl rfl, holds.nodup, holds.off,
        holds.cleared⟩
    · by_contra hne
      exact holds.own_off law hown (hpage a hne) ha
    · by_contra hne
      exact ha ⟨_, .inr hown, hpage a hne⟩

/-- The number tells the class. -/
theorem getSizeClass_of_index {m n : Nat} (h : (tcSizeClass.getSizeClass m).index =
    (tcSizeClass.getSizeClass n).index) :
    tcSizeClass.getSizeClass m = tcSizeClass.getSizeClass n := by
  have large : ∀ {n}, 28032 < n → tcSizeClass.getSizeClass n = .large n :=
    fun h => TcSizeClass.getSizeClass_large h
  have small : ∀ {n}, n ≤ 28032 → ∃ i < 64, tcSizeClass.getSizeClass n = .base i := fun h => by
    obtain ⟨i, -, hi, fits⟩ := TcSizeClass.getSizeClass_fits h
    exact ⟨i, fits.1, hi⟩
  obtain hm | hm := Nat.lt_or_ge 28032 m <;> obtain hn | hn := Nat.lt_or_ge 28032 n
  · rw [large hm, large hn] at h ⊢
    exact congrArg _ h
  · obtain ⟨j, hj, hclass⟩ := small hn
    rw [large hm, hclass] at h
    obtain rfl : m = j := h
    omega
  · obtain ⟨i, hi, hclass⟩ := small hm
    rw [large hn, hclass] at h
    obtain rfl : i = n := h
    omega
  · obtain ⟨i, -, hi⟩ := small hm
    obtain ⟨j, -, hj⟩ := small hn
    rw [hi, hj] at h ⊢
    exact congrArg _ h

/-- A block that stays where it is. -/
theorem RustInv.relabel (rinv : RustInv B Holds r g nodes) (hblock : block ∈ r.blocks)
    {newSize : Nat} (hsize : LayoutSize newSize)
    (hidx : (tcSizeClass.getSizeClass block.layout.size).index =
      (tcSizeClass.getSizeClass newSize).index) :
    RustInv B Holds (r.relabel block ⟨newSize, block.layout.align⟩) g nodes ∧
      (r.relabel block ⟨newSize, block.layout.align⟩).blocks =
        ⟨block.ptr, ⟨newSize, block.layout.align⟩⟩ ::ₘ r.blocks.erase block := by
  have hclass := getSizeClass_of_index hidx
  obtain ⟨hsmall, herase, hle⟩ | ⟨hlarge, herase, hlt⟩ := rinv.mem_blocks hblock
  · obtain ⟨idx, -, hold, -⟩ := TcSizeClass.getSizeClass_fits hle
    have hold : tcSizeClass.getSizeClass block.layout.size = .base idx := hold
    have hnew : newSize ≤ tcSizeClass.MAX_SIZE := by
      by_contra hnew
      have := TcSizeClass.getSizeClass_large (not_le.mp hnew)
      cases (hold.symm.trans hclass).trans this
    rw [herase, RustState.relabel]
    simp only [hold]
    refine ⟨⟨rinv.inv.relabel hsmall ⟨hsize.1, hnew⟩ hclass.symm, rinv.regions, rinv.large,
      rinv.sizes⟩, Multiset.cons_add _ _ _⟩
  · have hold : tcSizeClass.getSizeClass block.layout.size = .large block.layout.size :=
      TcSizeClass.getSizeClass_large hlt
    have hnew : block.layout.size = newSize := by
      by_contra hne
      obtain hlt' | hle := Nat.lt_or_ge tcSizeClass.MAX_SIZE newSize
      · exact hne (SizeClass.large.inj ((hold.symm.trans hclass).trans
          (TcSizeClass.getSizeClass_large hlt')))
      · obtain ⟨idx, -, hnew, -⟩ := TcSizeClass.getSizeClass_fits hle
        cases (hold.symm.trans hclass).trans hnew
    subst hnew
    rw [herase, RustState.relabel]
    simp only [hold, Multiset.cons_erase hlarge]
    refine ⟨rinv, ?_⟩
    rw [← Multiset.add_cons, Multiset.cons_erase hlarge, RustState.blocks]

end

end Cache

end UniAlloc
