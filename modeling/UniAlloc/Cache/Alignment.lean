import UniAlloc.Cache.Realloc

/-!
# Alignment

Small blocks come from the list or the row of a unit, which are searched for an aligned
chunk, or they are the first chunk of a batch, which is not. Large blocks come from the
backend, which knows no alignments. So a block is aligned as its layout asks, but
beyond the size of a page nothing is promised.
-/

namespace UniAlloc.Slab

open FreeList Radix

variable {κ σ : Type} {cfg : κ → Config} {Holds : σ → Mem → RadixTree → Set Block → Prop}
  {B : PageBackend σ} {slabs : κ → SCAllocator} {self' : SCAllocator} {h h₁ h' : Heap σ}
  {g : Ghost κ} {k : κ} {d align mapped num ptr n a : Nat} {newPage : Option Nat}

/-- The descriptor has all its chunks, and they begin with a page. -/
def Whole (page : ObjectPage) : Prop := page.counter = 0 ∧ page.data % PG_SIZE = 0

theorem ObjectPage.allocateAll_row {page page' : ObjectPage} {pgCount pgAlign : Nat}
    (h : page.allocateAll pgCount pgAlign = (page', ptr, n, some a)) :
    page.counter = 0 ∧ ptr = page.data := by
  rw [ObjectPage.allocateAll] at h
  split at h
  · next hzero =>
      cases h
      exact ⟨hzero, rfl⟩
  · cases h

theorem Heap.allocatePage_whole (law : Lawful B Holds) {held : Set Block}
    (holds : Holds h.back h.mem h.tree held) (hnum : 0 < num)
    (hcall : h.allocatePage B d num = some (h₁, ptr)) : Whole (h₁.desc d) := by
  obtain ⟨⟨p, back, mem, tree⟩, halloc, hcall⟩ := Option.bind_eq_some_iff.mp hcall
  obtain ⟨-, hcall⟩ := Option.ite_none_left_eq_some.mp hcall
  cases hcall
  have placed := law.placed (law.alloc holds hnum halloc).1 (Set.mem_insert _ _)
  simpa [Whole] using placed.aligned

theorem Inv.getUninit_whole (law : Lawful B Holds) (inv : Inv cfg Holds slabs h g)
    (ok : (cfg k).Ok)
    (hcall : (slabs k).getUninit B h mapped = some (self', h₁, d, ptr)) : Whole (h₁.desc d) := by
  have hnum : (slabs k).pgNum = (cfg k).pgNum := (inv.configured k).pgNum
  rw [SCAllocator.getUninit] at hcall
  split at hcall
  · obtain ⟨⟨slab, h₂, res⟩, hremove, hcall⟩ := Option.bind_eq_some_iff.mp hcall
    obtain ⟨⟨slab', h₃⟩, hfrom, hremove⟩ := Option.bind_eq_some_iff.mp hremove
    obtain ⟨⟨desc, start⟩, -, hfrom⟩ := Option.bind_eq_some_iff.mp hfrom
    cases hfrom
    cases hremove
    obtain ⟨⟨h₃, ptr'⟩, hpage, hcall⟩ := Option.bind_eq_some_iff.mp hcall
    cases hcall
    refine Heap.allocatePage_whole law (by exact inv.holds) ?_ hpage
    exact hnum ▸ ok.num_pos
  · obtain ⟨⟨bump, memory⟩, -, hcall⟩ := Option.bind_eq_some_iff.mp hcall
    obtain ⟨-, hcall⟩ := Option.ite_none_left_eq_some.mp hcall
    obtain ⟨⟨h₃, ptr'⟩, hpage, hcall⟩ := Option.bind_eq_some_iff.mp hcall
    cases hcall
    refine Heap.allocatePage_whole law (by exact inv.holds) ?_ hpage
    exact hnum ▸ ok.num_pos

section

variable [DecidableEq κ]

theorem Inv.getEmpty_whole (law : Lawful B Holds) (inv : Inv cfg Holds slabs h g)
    (ok : (cfg k).Ok) (hcall : (slabs k).getEmpty B h mapped = some (self', h₁, d, newPage)) :
    Whole (h₁.desc d) := by
  rw [SCAllocator.getEmpty] at hcall
  split at hcall
  · next he =>
      have threads : h.desc.Threads (starts (Function.update slabs k (slabs k))) g.rings := by
        rw [Function.update_eq_self]
        exact inv.threads
      obtain ⟨hmem, desc, slab', hremove, -, -, core⟩ :=
        removeEmpty_spec threads (inv.emptyCount k) he
      obtain ⟨⟨slab, h₂, res⟩, hcall', hcall⟩ := Option.bind_eq_some_iff.mp hcall
      cases hcall'.symm.trans hremove
      cases hcall
      have hmap : g.Mapped k (slabs k).emptyStart := ⟨.empty, by decide, hmem⟩
      obtain ⟨-, hzero⟩ := inv.page hmem
      obtain ⟨hcounter, hdata, -⟩ : (desc (slabs k).emptyStart).counter =
          (h.desc (slabs k).emptyStart).counter ∧ (desc (slabs k).emptyStart).data =
          (h.desc (slabs k).emptyStart).data ∧ (desc (slabs k).emptyStart).ptr =
          (h.desc (slabs k).emptyStart).ptr := by
        simpa [ObjectPage.core] using core (slabs k).emptyStart
      refine ⟨hcounter.trans hzero, ?_⟩
      rw [hdata]
      exact (inv.placed law hmap).aligned
  · obtain ⟨⟨slab, h₂, res, ptr⟩, huninit, hcall⟩ := Option.bind_eq_some_iff.mp hcall
    cases hcall
    exact inv.getUninit_whole law ok huninit

/-- A row of chunks begins with a page. -/
theorem Inv.row_start (law : Lawful B Holds) (inv : Inv cfg Holds slabs h g) (ok : (cfg k).Ok)
    (hcall : (slabs k).allocateBatchV2 B h align mapped = some (self', h', ptr, n, some a)) :
    ptr % PG_SIZE = 0 := by
  rw [SCAllocator.allocateBatchV2] at hcall
  split at hcall
  · next hs =>
      have hmem : (slabs k).partialStart ∈ g.rings (k, .partially) :=
        inv.threads.start_mem (i := ((k, .partially) : κ × Kind)) hs.1
      have busy := (inv.page hmem).2.1
      obtain ⟨⟨slab, h₁⟩, -, hcall⟩ := Option.bind_eq_some_iff.mp hcall
      obtain ⟨⟨slab', h₂⟩, -, hcall⟩ := Option.bind_eq_some_iff.mp hcall
      obtain ⟨hans, -⟩ := ObjectPage.allocateAll_row (Prod.ext rfl
        (congrArg (fun p => p.2.2) (Option.some.inj hcall)))
      exact absurd hans busy.pos.ne'
  · obtain ⟨⟨slab, h₁, obj, newPage⟩, hempty, hcall⟩ := Option.bind_eq_some_iff.mp hcall
    obtain ⟨tree, -, hcall⟩ := Option.bind_eq_some_iff.mp hcall
    obtain ⟨⟨slab', h₂⟩, -, hcall⟩ := Option.bind_eq_some_iff.mp hcall
    obtain ⟨-, hdata⟩ := inv.getEmpty_whole law ok hempty
    obtain ⟨-, rfl⟩ := ObjectPage.allocateAll_row (Prod.ext rfl
      (congrArg (fun p => p.2.2) (Option.some.inj hcall)))
    exact hdata

end

end UniAlloc.Slab

namespace UniAlloc.Cache

open FreeList Radix Slab Transition

variable {ι σ : Type} {B : PageBackend σ} {Holds : σ → Mem → RadixTree → Set Block → Prop}
  {request : Nat → Prop} {s s' : State ι σ} {g g' : Ghost Nat} {nodes nodes' : ι → Nat → List Nat}
  {t : ι} {block : Live} {layout : Layout} {idx mapped ptr n : Nat}

/-- A block is aligned as its layout asks, up to the size of a page. -/
def Live.Aligned (block : Live) : Prop :=
  ∀ k, block.layout.align = 2 ^ k → min block.layout.align PAGE_SIZE ∣ block.ptr

/-- All blocks are aligned. -/
def AllAligned (live : Multiset Live) : Prop := ∀ block ∈ live, block.Aligned

theorem min_pow_page (k : Nat) : min (2 ^ k) PAGE_SIZE = 2 ^ min k 12 := by
  have mono : Monotone fun n : Nat => (2 : Nat) ^ n := pow_right_mono₀ one_le_two
  have h : 2 ^ min k 12 = min (2 ^ k) (2 ^ 12) := mono.map_min
  exact h.symm

theorem Live.aligned_of_page (h : block.ptr % PG_SIZE = 0) : block.Aligned := by
  intro k hk
  rw [hk, min_pow_page]
  have hpage : 2 ^ min k 12 ∣ 2 ^ 12 := pow_dvd_pow 2 (min_le_right k 12)
  exact hpage.trans (Nat.dvd_of_mod_eq_zero h)

theorem Live.aligned_of_and (h : block.ptr &&& block.layout.align - 1 = 0) : block.Aligned := by
  intro k hk
  rw [hk, Linklist.and_pred_eq_zero_iff] at h
  rw [hk, min_pow_page]
  exact (pow_dvd_pow 2 (min_le_left k 12)).trans h

theorem AllAligned.cons {live : Multiset Live} (h : AllAligned live) (hblock : block.Aligned) :
    AllAligned (block ::ₘ live) :=
  Multiset.forall_mem_cons.mpr ⟨hblock, h⟩

theorem AllAligned.mono {live live' : Multiset Live} (h : AllAligned live) (hle : live' ≤ live) :
    AllAligned live' :=
  fun block hblock => h block (Multiset.mem_of_le hle hblock)

theorem ThreadCacheUnit.install_ans {unit unit' : ThreadCacheUnit} {mem : Mem}
    {batch : Nat × Nat × Option Nat} {ans : Nat}
    (h : unit.install mem batch = some (unit', ans)) : ans = batch.1 := by
  obtain ⟨ptr, n, stride⟩ := batch
  cases stride with
  | none =>
      obtain ⟨-, h⟩ := Option.ite_none_left_eq_some.mp h
      cases h
      rfl
  | some a =>
      obtain ⟨-, h⟩ := Option.ite_none_left_eq_some.mp h
      cases h
      rfl

/-- The first chunk of a batch is aligned, though nobody looks: the chunks of a row begin with
a page, and linked ones are handed out if any chunk will do. -/
theorem batch_aligned (law : Lawful B Holds) {slabs : Nat → SCAllocator} {h h' : Heap σ}
    (inv : Slab.Inv (configs tcSizeClass) Holds slabs h g) (hidx : IsClass tcSizeClass idx)
    (fresh : (defaultBuild B).maps h mapped) {slab' : SCAllocator} {stride : Option Nat}
    (hcall : (slabs idx).allocateBatchV2 B h layout.align mapped =
      some (slab', h', ptr, n, stride)) : Live.Aligned ⟨ptr, layout⟩ := by
  have sound := defaultBuild_sound law
  cases stride with
  | none =>
      obtain ⟨_, _, _, _, _, _, _, hcall', -, -, hone⟩ | ⟨hcall', -⟩ :=
        sound.batch layout.align inv hidx fresh
      · cases hcall.symm.trans hcall'
        refine Live.aligned_of_and ?_
        rw [hone rfl, Nat.sub_self, Nat.and_zero]
      · cases hcall.symm.trans hcall'
  | some a =>
      apply Live.aligned_of_page
      exact inv.row_start law (configs_ok tcSizeClass_sound hidx) hcall

variable [DecidableEq ι] [Fintype ι]

theorem Inv.allocate_aligned (law : Lawful B Holds)
    (inv : Inv (defaultBuild B) Holds (SmallRequest tcSizeClass) s g nodes)
    (hreq : SmallRequest tcSizeClass layout.size) (aligned : AllAligned s.live)
    (hcall : s.allocate (defaultBuild B) t layout = some s') : AllAligned s'.live := by
  have sound := defaultBuild_sound law
  obtain ⟨idx, rounds⟩ := sound.rounds _ hreq
  obtain ⟨unit, mem, ans, l, hlocal, -, -, hans⟩ :=
    ThreadCacheUnit.allocateLocal_spec (inv.lists t idx) (inv.nodup_share t idx)
      (inv.share_pos sound t idx) layout.align
  simp only [State.allocate, rounds.class_eq, if_neg rounds.pos.ne', if_pos rounds.lt, hlocal,
    Option.bind_eq_bind, Option.bind_some] at hcall
  obtain ⟨rfl, -⟩ | ⟨hne, halign, -⟩ := hans
  · rw [if_neg (not_not_intro rfl)] at hcall
    cases hcall
    exact aligned
  · rw [if_pos hne] at hcall
    cases hcall
    exact aligned.cons (Live.aligned_of_and halign)

theorem Inv.refill_aligned (law : Lawful B Holds)
    (inv : Inv (defaultBuild B) Holds (SmallRequest tcSizeClass) s g nodes)
    (hidx : IsClass tcSizeClass idx) (fresh : (defaultBuild B).maps s.heap mapped)
    (aligned : AllAligned s.live)
    (hcall : s.refill (defaultBuild B) t idx layout mapped = some s') : AllAligned s'.live := by
  obtain ⟨⟨slab, heap, batch⟩, hbatch, hcall⟩ := Option.bind_eq_some_iff.mp hcall
  obtain ⟨⟨unit, ans⟩, hinstall, hcall⟩ := Option.bind_eq_some_iff.mp hcall
  cases hcall
  obtain rfl := ThreadCacheUnit.install_ans hinstall
  exact aligned.cons (batch_aligned law inv.slab hidx fresh hbatch)

omit [Fintype ι] in
theorem State.deallocate_live {b : Build σ} (hcall : s.deallocate b t block = some s') :
    s'.live ≤ s.live := by
  rw [State.deallocate] at hcall
  split at hcall
  · next idx hidx =>
      split at hcall
      · cases hcall
        exact Multiset.erase_le _ _
      · obtain ⟨-, hcall⟩ := Option.ite_none_right_eq_some.mp hcall
        cases hcall
        exact Multiset.erase_le _ _
  · cases hcall

theorem Inv.exec_aligned (law : Lawful B Holds)
    (inv : Inv (defaultBuild B) Holds (SmallRequest tcSizeClass) s g nodes) {m : Move}
    (enabled : s.Enabled (defaultBuild B) t (SmallRequest tcSizeClass) m)
    (aligned : AllAligned s.live) (hcall : s.exec (defaultBuild B) t m = some s') :
    AllAligned s'.live := by
  have sound := defaultBuild_sound law
  cases m with
  | allocate layout => exact inv.allocate_aligned law enabled.2 aligned hcall
  | refill mapped =>
      obtain ⟨⟨idx, layout, hpc⟩, fresh⟩ := enabled
      obtain ⟨hidx, hreq, -, -⟩ :
          PcOk tcSizeClass (SmallRequest tcSizeClass) (s.caches t) (nodes t) (.refill idx layout) :=
        hpc ▸ inv.pcs t
      have hcall : s.refill (defaultBuild B) t idx layout mapped = some s' := by
        rw [State.exec, hpc] at hcall
        exact hcall
      exact inv.refill_aligned law (sound.isClass hreq hidx).1 fresh aligned hcall
  | deallocate block => exact aligned.mono (State.deallocate_live hcall)
  | store block offset v =>
      cases hcall
      exact aligned
  | exit =>
      cases hcall
      exact aligned
  | flush =>
      obtain ⟨idx, hpc⟩ := enabled
      rw [State.exec, hpc] at hcall
      cases hcall
      rw [State.flush]
      split <;> exact aligned
  | giveBack =>
      obtain ⟨idx, hpc⟩ := enabled
      rw [State.exec, hpc] at hcall
      obtain ⟨⟨slab, heap⟩, -, hcall⟩ := Option.bind_eq_some_iff.mp hcall
      cases hcall
      exact aligned

theorem Inv.unitAllocate_aligned (law : Lawful B Holds)
    (inv : Inv (defaultBuild B) Holds (SmallRequest tcSizeClass) s g nodes) (idle : s.pc t = .idle)
    (hreq : SmallRequest tcSizeClass layout.size)
    (hidx : tcSizeClass.getSizeClass layout.size = .base idx)
    (fresh : (defaultBuild B).maps s.heap mapped)
    (hcall : s.unitAllocate (defaultBuild B) t layout id idx mapped = some (ptr, s')) :
    Live.Aligned ⟨ptr, layout⟩ ∧ s'.live = s.live := by
  have sound := defaultBuild_sound law
  obtain ⟨hclass, -⟩ := sound.isClass hreq hidx
  obtain ⟨unit, mem, ans, l, hlocal, -, -, hans⟩ :=
    ThreadCacheUnit.allocateLocal_spec (inv.lists t idx) (inv.nodup_share t idx)
      (inv.share_pos sound t idx) layout.align
  obtain ⟨s₁, nodes₁, hfirst, inv₁⟩ := inv.allocate sound idle hreq
  have hidx' : (defaultBuild B).classes.getSizeClass layout.size = .base idx := hidx
  have hlt : idx < (defaultBuild B).classes.TOTAL_SIZE_CLASS := hclass.2
  simp only [State.allocate, hidx', if_neg hclass.1.ne', if_pos hlt, hlocal,
    Option.bind_eq_bind, Option.bind_some] at hfirst
  simp only [State.unitAllocate, hlocal, Option.bind_eq_bind, Option.bind_some, id] at hcall
  obtain ⟨rfl, -⟩ | ⟨hne, halign, -⟩ := hans
  · rw [if_neg (not_not_intro rfl)] at hfirst hcall
    cases hfirst
    obtain ⟨⟨slab, heap, batch⟩, hbatch, hcall⟩ := Option.bind_eq_some_iff.mp hcall
    obtain ⟨⟨unit', ans'⟩, hinstall, hcall⟩ := Option.bind_eq_some_iff.mp hcall
    cases hcall
    obtain rfl := ThreadCacheUnit.install_ans hinstall
    exact ⟨batch_aligned law inv₁.slab hclass fresh hbatch, rfl⟩
  · rw [if_pos hne] at hcall
    cases hcall
    exact ⟨Live.aligned_of_and halign, rfl⟩

variable {r r' : RustState ι σ}

theorem RustInv.allocSmall_aligned (law : Lawful B Holds) (rinv : RustInv B Holds r g nodes)
    (idle : r.cache.pc t = .idle) (hreq : SmallRequest tcSizeClass layout.size)
    (fresh : (largeBuild B).maps r.cache.heap mapped) (aligned : AllAligned r.cache.live)
    (hcall : r.alloc B t layout mapped = some (ptr, r')) : AllAligned r'.cache.live := by
  obtain ⟨idx, rounds⟩ := tcSizeClass_rounds hreq.1 hreq.2
  have hclass : tcSizeClass.getSizeClass layout.size = .base idx := rounds.class_eq
  have hclass' : (largeBuild B).classes.getSizeClass layout.size = .base idx := hclass
  have hlt : idx < (largeBuild B).classes.TOTAL_SIZE_CLASS := rounds.lt
  simp only [RustState.alloc, State.rustAlloc, State.threadAllocate, hclass',
    if_neg rounds.pos.ne', if_pos hlt, Option.bind_eq_bind, Option.bind_assoc,
    Option.bind_some] at hcall
  obtain ⟨⟨p, cache⟩, hunit, hcall⟩ := Option.bind_eq_some_iff.mp hcall
  obtain ⟨haligned, hlive⟩ := rinv.inv.unitAllocate_aligned (fixedBackend_lawful law) idle hreq
    hclass fresh hunit
  cases hcall
  simp only [RustState.record, hclass]
  split
  · exact hlive ▸ aligned
  · exact (hlive ▸ aligned).cons haligned

omit [Fintype ι] in
theorem RustState.allocLarge_live (hlarge : tcSizeClass.MAX_SIZE < layout.size)
    (hcall : r.alloc B t layout mapped = some (ptr, r')) : r'.cache.live = r.cache.live := by
  have hclass : tcSizeClass.getSizeClass layout.size = .large layout.size :=
    TcSizeClass.getSizeClass_large hlarge
  have hclass' : (largeBuild B).classes.getSizeClass layout.size = .large layout.size := hclass
  simp only [RustState.alloc, State.rustAlloc, State.threadAllocate, hclass',
    State.zoneAllocateLarge, Option.bind_eq_bind, Option.bind_some, id] at hcall
  cases hcall
  have hbackend : (r.cache.backendAlloc (largeBuild B) layout).2.live = r.cache.live := by
    rw [State.backendAlloc]
    split
    · rfl
    · split <;> rfl
  simp only [RustState.record, hclass]
  split <;> exact hbackend

omit [Fintype ι] in
theorem RustState.dealloc_live (hcall : r.dealloc B t block = some r') :
    r'.cache.live ≤ r.cache.live := by
  rw [RustState.dealloc] at hcall
  split at hcall
  · obtain ⟨cache, hcache, heq⟩ := Option.bind_eq_some_iff.mp hcall
    cases heq
    exact State.deallocate_live hcache
  · obtain ⟨⟨inner, mem, tree⟩, -, heq⟩ := Option.bind_eq_some_iff.mp hcall
    cases heq
    exact le_rfl

theorem RustInv.alloc_aligned (law : Lawful B Holds) (rinv : RustInv B Holds r g nodes)
    (idle : r.cache.pc t = .idle) (hsize : LayoutSize layout.size)
    (fresh : layout.size ≤ tcSizeClass.MAX_SIZE → (largeBuild B).maps r.cache.heap mapped)
    (aligned : AllAligned r.cache.live) (hcall : r.alloc B t layout mapped = some (ptr, r')) :
    AllAligned r'.cache.live := by
  obtain hlarge | hsmall := Nat.lt_or_ge tcSizeClass.MAX_SIZE layout.size
  · exact RustState.allocLarge_live hlarge hcall ▸ aligned
  · exact rinv.allocSmall_aligned law idle ⟨hsize.1, hsmall⟩ (fresh hsmall) aligned hcall

/-- A block that stays keeps its alignment, and one that moves is asked for with the same. -/
theorem RustInv.realloc_aligned (law : Lawful B Holds) (rinv : RustInv B Holds r g nodes)
    (idle : r.cache.pc t = .idle) (hblock : block ∈ r.blocks) {newSize : Nat}
    (hsize : LayoutSize newSize) (fresh : (largeBuild B).maps r.cache.heap mapped)
    (aligned : AllAligned r.cache.live)
    (hcall : r.realloc B t block newSize mapped = some (ptr, r')) : AllAligned r'.cache.live := by
  rw [RustState.realloc] at hcall
  simp only at hcall
  split at hcall
  · cases hcall
    rw [RustState.relabel]
    split
    · next idx hclass =>
        have hsmall : block ∈ r.cache.live := by
          obtain ⟨hsmall, -⟩ | ⟨-, -, hlt⟩ := rinv.mem_blocks hblock
          · exact hsmall
          · cases hclass.symm.trans (TcSizeClass.getSizeClass_large hlt)
        have hkeeps : Live.Aligned ⟨block.ptr, newSize, block.layout.align⟩ :=
          aligned block hsmall
        exact (aligned.mono (Multiset.erase_le _ _)).cons hkeeps
    · exact aligned
  · obtain ⟨⟨newPtr, r₁⟩, halloc, hcall⟩ := Option.bind_eq_some_iff.mp hcall
    have aligned₁ : AllAligned r₁.cache.live :=
      rinv.alloc_aligned law idle (by exact hsize) (fun _ => fresh) aligned halloc
    split at hcall
    · obtain ⟨r₂, hdealloc, heq⟩ := Option.bind_eq_some_iff.mp hcall
      cases heq
      exact AllAligned.mono (by exact aligned₁) (RustState.dealloc_live hdealloc)
    · cases hcall
      exact aligned₁

theorem RustInv.step_aligned (law : Lawful B Holds) (rinv : RustInv B Holds r g nodes)
    {m : RustMove ι} (hstep : RustStep B r m r') (aligned : AllAligned r.cache.live) :
    AllAligned r'.cache.live := by
  obtain ⟨enabled, hexec⟩ := hstep
  cases m with
  | small t m =>
      obtain ⟨cache, hcall, hexec⟩ := Option.bind_eq_some_iff.mp hexec
      cases hexec
      exact rinv.inv.exec_aligned (fixedBackend_lawful law) enabled aligned hcall
  | alloc t layout =>
      obtain ⟨-, hlarge, -⟩ := enabled
      obtain ⟨⟨ptr, r₁⟩, hcall, hexec⟩ := Option.bind_eq_some_iff.mp hexec
      cases hexec
      exact RustState.allocLarge_live hlarge hcall ▸ aligned
  | dealloc t block => exact aligned.mono (RustState.dealloc_live hexec)
  | store t block offset v =>
      cases hexec
      exact aligned
  | realloc t block newSize mapped =>
      obtain ⟨idle, hblock, hsize, fresh⟩ := enabled
      obtain ⟨⟨ptr, r₁⟩, hcall, hexec⟩ := Option.bind_eq_some_iff.mp hexec
      cases hexec
      exact rinv.realloc_aligned law idle hblock hsize fresh aligned hcall

end UniAlloc.Cache
