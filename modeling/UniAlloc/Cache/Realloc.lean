import UniAlloc.Cache.Large

/-!
# Reallocation

A block that changes its class moves: another block is allocated, the bytes are copied, and
the old block is released. Whatever the two classes are, the program keeps its data, and
every block goes back to where it came from.
-/

namespace UniAlloc.Cache

open FreeList Radix Slab Transition

variable {ι σ : Type} [DecidableEq ι] [Fintype ι] {B : PageBackend σ}
  {Holds : σ → Mem → RadixTree → Set Block → Prop} {r r' : RustState ι σ} {g g' : Ghost Nat}
  {nodes nodes' : ι → Nat → List Nat} {t : ι} {block c : Live} {layout : Layout}

/-- The pages that a request may take from the backend. -/
def pagesFor (size : Nat) : Nat :=
  match tcSizeClass.getSizeClass size with
  | .base idx => (configs tcSizeClass idx).pgNum
  | .large size => numPages size

/-- The backend has a run for the request. -/
def Supplied (B : PageBackend σ) (Holds : σ → Mem → RadixTree → Set Block → Prop)
    (r : RustState ι σ) (size : Nat) : Prop :=
  ∀ mem held, Holds r.cache.heap.back.inner mem r.cache.heap.tree held →
    B.alloc r.cache.heap.back.inner mem r.cache.heap.tree (PAGE_SIZE * pagesFor size) ≠ none

/-- A block has been allocated, and the others have kept their contents. -/
structure Allocated (r r' : RustState ι σ) (block : Live) : Prop where
  blocks : r'.blocks = block ::ₘ r.blocks
  pos : block.ptr ≠ 0
  pc : r'.cache.pc = r.cache.pc
  kept : ∀ c ∈ r.blocks, ∀ a, c.Byte a → r'.mem a = r.mem a

/-- A small block is allocated, unless the backend has no memory. -/
theorem RustInv.allocSmall (law : Lawful B Holds) (rinv : RustInv B Holds r g nodes)
    (idle : r.cache.pc t = .idle) (hreq : SmallRequest tcSizeClass layout.size) {mapped : Nat}
    (fresh : (largeBuild B).maps r.cache.heap mapped) :
    (∃ ptr r' g' nodes', r.alloc B t layout mapped = some (ptr, r') ∧
      RustInv B Holds r' g' nodes' ∧ Allocated r r' ⟨ptr, layout⟩) ∨
    r.alloc B t layout mapped = none ∧ ¬Supplied B Holds r layout.size := by
  have sound := largeBuild_sound law r.large r.mem
  obtain ⟨idx, rounds⟩ := sound.rounds _ hreq
  have hclass : tcSizeClass.getSizeClass layout.size = .base idx := rounds.class_eq
  have halloc : r.alloc B t layout mapped =
      (r.cache.unitAllocate (largeBuild B) t layout id idx mapped).bind fun p =>
        some (p.1, RustState.record { r with cache := p.2 } ⟨p.1, layout⟩) := by
    simp only [RustState.alloc, State.rustAlloc, State.threadAllocate, rounds.class_eq,
      if_neg rounds.pos.ne', if_pos rounds.lt, Option.bind_eq_bind, Option.bind_assoc,
      Option.bind_some]
  rw [halloc]
  obtain ⟨ptr, s', g', nodes', hunit, hptr, inv', hlive, hpc, hmem⟩ | ⟨hunit, mem, holds, hout⟩ :=
    rinv.fixed.unitAllocate sound idle hreq rounds.class_eq fun _ => fresh
  · obtain ⟨rinv', hlarge⟩ := rinv.of_fixed inv'
    have hrecord : RustState.record { r with cache := s' } ⟨ptr, layout⟩ =
        { r with cache := s'.addLive ⟨ptr, layout⟩ } := by
      simp only [RustState.record, if_neg hptr, hclass]
    rw [hunit, Option.bind_some, hrecord]
    refine .inl ⟨ptr, _, g', nodes', rfl, rinv', ?_, hptr, hpc, fun c hc a ha => ?_⟩
    · simp only [RustState.blocks, State.addLive, hlive, Multiset.cons_add]
    · obtain hc | hc := Multiset.mem_add.mp hc
      · obtain ⟨held, hshare⟩ := rinv.fixed.live_byte sound hc ha
        exact hmem a held (hshare t idx)
      · exact hlarge _ (rinv.run_mem hc) a (Live.byte_page (rinv.run_placed law hc) ha)
  · rw [hunit]
    refine .inr ⟨rfl, fun supplied => ?_⟩
    have hpages : pagesFor layout.size = (configs tcSizeClass idx).pgNum := by
      rw [pagesFor, hclass]
    refine supplied mem _ holds.holds.inner ?_
    rw [hpages]
    exact Option.eq_none_iff_forall_ne_some.mpr fun x hx =>
      absurd (Option.bind_eq_none_iff.mp hout x hx) (Option.some_ne_none _)

/-- A large block is allocated, unless the backend has no memory. -/
theorem RustInv.allocLarge (law : Lawful B Holds) (rounds : Rounds B)
    (rinv : RustInv B Holds r g nodes) (hlarge : tcSizeClass.MAX_SIZE < layout.size)
    (hsize : LayoutSize layout.size) (mapped : Nat) :
    (∃ ptr r', r.alloc B t layout mapped = some (ptr, r') ∧
      RustInv B Holds r' g nodes ∧ Allocated r r' ⟨ptr, layout⟩) ∨
    r.alloc B t layout mapped = some (0, r) ∧ ¬Supplied B Holds r layout.size := by
  have hclass : tcSizeClass.getSizeClass layout.size = .large layout.size :=
    TcSizeClass.getSizeClass_large hlarge
  have hpages : pagesFor layout.size = numPages layout.size := by
    rw [pagesFor, hclass]
  have hnum : 0 < numPages layout.size := by
    have := hsize.1
    simp only [numPages, PAGE_SIZE]
    omega
  have holds := rinv.inv.slab.holds
  have hclass' : (largeBuild B).classes.getSizeClass layout.size = .large layout.size := hclass
  have halloc : r.alloc B t layout mapped =
      some ((r.cache.backendAlloc (largeBuild B) layout).1, RustState.record
        { r with cache := (r.cache.backendAlloc (largeBuild B) layout).2 }
        ⟨(r.cache.backendAlloc (largeBuild B) layout).1, layout⟩) := by
    simp only [RustState.alloc, State.rustAlloc, State.threadAllocate, hclass',
      State.zoneAllocateLarge, Option.bind_eq_bind, Option.bind_some, id]
  have hbackend : (largeBuild B).backend.alloc r.cache.heap.back r.cache.heap.mem
      r.cache.heap.tree layout.size = (fixedBackend B).alloc r.cache.heap.back r.cache.heap.mem
      r.cache.heap.tree (PAGE_SIZE * numPages layout.size) := by
    simp only [defaultBuild, fixedBackend, (rounds _ _ _ _ hsize.1).1]
  rw [halloc, State.backendAlloc, if_neg (not_lt.mpr hsize.2), hbackend]
  cases hcall : B.alloc r.cache.heap.back.inner r.cache.heap.mem r.cache.heap.tree
      (PAGE_SIZE * numPages layout.size) with
  | none =>
      rw [fixedBackend_alloc_eq_none hcall]
      refine .inr ⟨rfl, fun supplied => ?_⟩
      exact supplied _ _ holds.inner (hpages ▸ hcall)
  | some x =>
      obtain ⟨ptr, inner, mem, tree⟩ := x
      have hfixed : (fixedBackend B).alloc r.cache.heap.back r.cache.heap.mem r.cache.heap.tree
          (PAGE_SIZE * numPages layout.size) =
          some (ptr, { r.cache.heap.back with inner }, mem, tree) :=
        Option.bind_eq_some_iff.mpr ⟨_, hcall, rfl⟩
      obtain ⟨holds', hnew, same, -⟩ := law.alloc holds.inner hnum hcall
      have hptr : ptr ≠ 0 := (law.placed holds' (Set.mem_insert _ _)).pos.ne'
      obtain ⟨taken, sameRuns⟩ := holds.take law { r.cache.heap.back with
        inner, large := ⟨ptr, numPages layout.size⟩ :: r.large } hnum hcall List.perm_middle
      rw [hfixed]
      simp only [RustState.record, if_neg hptr, hclass]
      refine .inl ⟨ptr, _, rfl, ⟨rinv.inv.backed
        (defaultBuild_sound (fixedBackend_lawful law)) sameRuns taken, rinv.regions, ?_, ?_⟩,
        Multiset.add_cons _ _ _, hptr, rfl, fun c hc a ha => ?_⟩
      · rw [Multiset.map_cons, ← rinv.large]
        rfl
      · exact Multiset.forall_mem_cons.mpr ⟨hlarge, rinv.sizes⟩
      · obtain hc | hc := Multiset.mem_add.mp hc
        · have held := (rinv.inv.live_byte (defaultBuild_sound (fixedBackend_lawful law)) hc ha).1
          exact sameRuns.mem a held
        · exact same.mem a ⟨_, .inr (rinv.run_own hc),
            Live.byte_page (rinv.run_placed law hc) ha⟩

/-- Any block is allocated, unless the backend has no memory. -/
theorem RustInv.alloc (law : Lawful B Holds) (rounds : Rounds B)
    (rinv : RustInv B Holds r g nodes) (idle : r.cache.pc t = .idle) (layout : Layout)
    (hsize : LayoutSize layout.size) {mapped : Nat}
    (fresh : (largeBuild B).maps r.cache.heap mapped) :
    (∃ ptr r' g' nodes', r.alloc B t layout mapped = some (ptr, r') ∧
      RustInv B Holds r' g' nodes' ∧ Allocated r r' ⟨ptr, layout⟩) ∨
    (r.alloc B t layout mapped = none ∨ r.alloc B t layout mapped = some (0, r)) ∧
      ¬Supplied B Holds r layout.size := by
  obtain hlarge | hsmall := Nat.lt_or_ge tcSizeClass.MAX_SIZE layout.size
  · obtain ⟨ptr, r', hcall, rinv', allocated⟩ | ⟨hcall, hout⟩ :=
      rinv.allocLarge law rounds (t := t) hlarge hsize mapped
    · exact .inl ⟨ptr, r', g, nodes, hcall, rinv', allocated⟩
    · exact .inr ⟨.inr hcall, hout⟩
  · obtain h | ⟨hcall, hout⟩ := rinv.allocSmall law idle ⟨hsize.1, hsmall⟩ fresh
    · exact .inl h
    · exact .inr ⟨.inl hcall, hout⟩

/-- The block goes back to where it came from: a small one to the unit of its class, a large
one to the backend. -/
structure Released (B : PageBackend σ) (r r' : RustState ι σ) (t : ι) (block : Live) : Prop where
  blocks : r'.blocks = r.blocks.erase block
  slabs : r'.cache.slabs = r.cache.slabs
  small : ∀ idx, tcSizeClass.getSizeClass block.layout.size = .base idx →
    (r'.cache.caches t idx).list = ⟨block.ptr, (r.cache.caches t idx).list.length + 1⟩ ∧
    r'.mem block.ptr = (r.cache.caches t idx).list.link ∧
    (∀ u k, u ≠ t ∨ k ≠ idx → r'.cache.caches u k = r.cache.caches u k) ∧
    r'.cache.heap.back = r.cache.heap.back
  large : ∀ size, tcSizeClass.getSizeClass block.layout.size = .large size →
    r'.cache.caches = r.cache.caches ∧ r'.large = r.large.erase block.run ∧
    B.dealloc r.cache.heap.back.inner r.mem r.cache.heap.tree block.ptr block.layout.size =
      some (r'.cache.heap.back.inner, r'.mem, r'.cache.heap.tree)

/-- A small block is released. -/
theorem RustInv.deallocSmall (law : Lawful B Holds) (rinv : RustInv B Holds r g nodes)
    (idle : r.cache.pc t = .idle) (hblock : block ∈ r.cache.live) :
    ∃ r' nodes', r.dealloc B t block = some r' ∧ RustInv B Holds r' g nodes' ∧
      Released B r r' t block ∧ r'.cache.pc = r.cache.pc ∧
      ∀ c ∈ r.blocks.erase block, ∀ a, c.Byte a → r'.mem a = r.mem a := by
  have sound := largeBuild_sound law r.large r.mem
  obtain ⟨idx, hclass, hidx, -⟩ := rinv.fixed.live_chunk sound hblock
  obtain ⟨s', nodes', hcall, inv'⟩ := rinv.fixed.deallocate sound idle hblock
  cases (Inv.deallocate_eq hclass hidx).symm.trans hcall
  have hblock' : block ∈ r.blocks := Multiset.mem_add.mpr (.inl hblock)
  have hclass' : tcSizeClass.getSizeClass block.layout.size = .base idx := hclass
  obtain ⟨hpos, -⟩ := rinv.inv.live _ hblock
  refine ⟨_, nodes', ?_, (rinv.of_fixed inv').1, ⟨?_, rfl, fun k hk => ?_, fun size hk => ?_⟩, rfl,
    fun c hc a ha => Function.update_of_ne ?_ _ _⟩
  · simp only [RustState.dealloc, hclass', Inv.deallocate_eq hclass hidx, Option.bind_eq_bind,
      Option.bind_some]
  · exact (Multiset.erase_add_left_pos _ hblock).symm
  · obtain rfl := SizeClass.base.inj (hk.symm.trans hclass')
    refine ⟨congrArg ThreadCacheUnit.list (Inv.update_here _ _ _ _), Function.update_self _ _ _,
      fun u j h => Inv.update_other _ _ h, rfl⟩
  · cases hk.symm.trans hclass'
  · rintro rfl
    exact rinv.apart law hblock' hc ⟨le_rfl, Nat.lt_add_of_pos_right hpos⟩ ha

/-- A large block is released. -/
theorem RustInv.deallocLarge (law : Lawful B Holds) (rounds : Rounds B)
    (rinv : RustInv B Holds r g nodes) (hblock : block ∈ r.big) :
    ∃ r', r.dealloc B t block = some r' ∧ RustInv B Holds r' g nodes ∧
      Released B r r' t block ∧ r'.cache.pc = r.cache.pc ∧
      ∀ c ∈ r.blocks.erase block, ∀ a, c.Byte a → r'.mem a = r.mem a := by
  have hsize := rinv.sizes _ hblock
  have hclass : tcSizeClass.getSizeClass block.layout.size = .large block.layout.size :=
    TcSizeClass.getSizeClass_large hsize
  have hblock' : block ∈ r.blocks := Multiset.mem_add.mpr (.inr hblock)
  have holds := rinv.inv.slab.holds
  have hown := rinv.run_own hblock
  obtain ⟨inner, mem, tree, hcall, -, same⟩ := law.dealloc holds.inner (.inr hown)
    (holds.cleared _ hown)
  have perm : (r.cache.heap.back.regions ++ r.large).Perm
      (block.run :: (r.cache.heap.back.regions ++ r.large.erase block.run)) :=
    ((List.perm_cons_erase (rinv.run_mem hblock)).append_left _).trans List.perm_middle
  obtain ⟨given, sameRuns⟩ := holds.give law { r.cache.heap.back with
    inner, large := r.large.erase block.run } hown hcall perm
  have hcall' : B.dealloc r.cache.heap.back.inner r.mem r.cache.heap.tree block.ptr
      block.layout.size = some (inner, mem, tree) := by
    rw [(rounds _ _ _ _ (Nat.zero_lt_of_lt hsize)).2]
    exact hcall
  have hdealloc : r.dealloc B t block = some ⟨{ r.cache with
      heap := { r.cache.heap with
        back := { r.cache.heap.back with inner, large := r.large.erase block.run }
        mem
        tree } }, r.big.erase block⟩ := by
    simp only [RustState.dealloc, hclass]
    exact Option.bind_eq_some_iff.mpr ⟨_, hcall', rfl⟩
  obtain ⟨-, herase, -⟩ := (rinv.mem_blocks hblock').resolve_left
    fun h => absurd h.2.2 (not_le.mpr hsize)
  refine ⟨_, hdealloc, ⟨rinv.inv.backed (defaultBuild_sound (fixedBackend_lawful law)) sameRuns
    given, rinv.regions, ?_, fun c hc => rinv.sizes c (Multiset.mem_of_mem_erase hc)⟩,
    ⟨herase.symm, rfl, fun k hk => ?_, fun size hk => ⟨rfl, rfl, hcall'⟩⟩, rfl, fun c hc a ha => ?_⟩
  · rw [← Multiset.cons_inj_right block.run, ← Multiset.map_cons, Multiset.cons_erase hblock,
      ← rinv.large, Multiset.cons_coe]
    exact Multiset.coe_eq_coe.mpr (List.perm_cons_erase (rinv.run_mem hblock)).symm
  · cases hk.symm.trans hclass
  · obtain hc | hc := Multiset.mem_add.mp (herase ▸ hc)
    · have held := (rinv.inv.live_byte (defaultBuild_sound (fixedBackend_lawful law)) hc ha).1
      exact sameRuns.mem a held
    · have hcbig := Multiset.mem_of_mem_erase hc
      exact same.mem a ⟨c.run, ⟨.inr (rinv.run_own hcbig), (rinv.run_ne hblock hc).symm⟩,
        Live.byte_page (rinv.run_placed law hcbig) ha⟩

/-- Any block is released. -/
theorem RustInv.dealloc (law : Lawful B Holds) (rounds : Rounds B)
    (rinv : RustInv B Holds r g nodes) (idle : r.cache.pc t = .idle) (hblock : block ∈ r.blocks) :
    ∃ r' nodes', r.dealloc B t block = some r' ∧ RustInv B Holds r' g nodes' ∧
      Released B r r' t block ∧ r'.cache.pc = r.cache.pc ∧
      ∀ c ∈ r.blocks.erase block, ∀ a, c.Byte a → r'.mem a = r.mem a := by
  obtain hsmall | hlarge := Multiset.mem_add.mp hblock
  · exact rinv.deallocSmall law idle hsmall
  · obtain ⟨r', hrest⟩ := rinv.deallocLarge law rounds (t := t) hlarge
    exact ⟨r', nodes, hrest⟩

/-- What `realloc` answers, and what it leaves behind. -/
structure Reallocated (B : PageBackend σ) (r r' : RustState ι σ) (t : ι) (block new : Live) :
    Prop where
  blocks : r'.blocks = new ::ₘ r.blocks.erase block
  pos : new.ptr ≠ 0
  apart : ∀ c ∈ r.blocks.erase block, ∀ a, new.Byte a → ¬c.Byte a
  copied : ∀ i < min block.layout.size new.layout.size,
    r'.mem (new.ptr + i) = r.mem (block.ptr + i)
  others : ∀ c ∈ r.blocks.erase block, ∀ a, c.Byte a → r'.mem a = r.mem a
  /-- The block stays where it is, and nothing is released; -/
  stayed : new.ptr = block.ptr → r'.cache.slabs = r.cache.slabs ∧
    r'.cache.heap = r.cache.heap ∧ r'.cache.caches = r.cache.caches ∧ r'.large = r.large
  /-- or it has moved, and the old block is released, once the new one is there. -/
  moved : new.ptr ≠ block.ptr → ∃ r₁, Allocated r r₁ new ∧ Released B r₁ r' t block

omit [DecidableEq ι] in
/-- The block has kept its class. -/
theorem RustInv.realloc_stays (law : Lawful B Holds) (rinv : RustInv B Holds r g nodes)
    (hblock : block ∈ r.blocks) {newSize : Nat} (hsize : LayoutSize newSize)
    (hidx : (tcSizeClass.getSizeClass block.layout.size).index =
      (tcSizeClass.getSizeClass newSize).index) :
    Reallocated B r (r.relabel block ⟨newSize, block.layout.align⟩) t block
      ⟨block.ptr, newSize, block.layout.align⟩ := by
  obtain ⟨rinv', hblocks⟩ := rinv.relabel hblock hsize hidx
  have hcache := r.relabel_cache block ⟨newSize, block.layout.align⟩
  have hmem : (r.relabel block ⟨newSize, block.layout.align⟩).mem = r.mem := by
    rw [RustState.mem, hcache]
    rfl
  refine ⟨hblocks, (rinv.ptr_pos law hblock).ne', fun c hc a ha => ?_, fun _ _ => by rw [hmem],
    fun _ _ _ _ => by rw [hmem], fun _ => ?_, fun hne => absurd rfl hne⟩
  · refine rinv'.apart law ?_ ?_ ha
    · exact hblocks ▸ Multiset.mem_cons_self _ _
    · rwa [hblocks, Multiset.erase_cons_head]
  · rw [RustState.large, hcache]
    exact ⟨rfl, rfl, rfl, rfl⟩

theorem copyNonoverlapping_of_lt (mem : Mem) (src dst : Nat) {count i : Nat} (h : i < count) :
    copyNonoverlapping mem src dst count (dst + i) = mem (src + i) := by
  rw [copyNonoverlapping, if_pos ⟨Nat.le_add_right _ _, Nat.add_lt_add_left h _⟩,
    Nat.add_sub_cancel_left]

/-- The copy writes to the new block only. -/
theorem copyNonoverlapping_of_not_byte {new : Live} (mem : Mem) (src : Nat) {count a : Nat}
    (hcount : count ≤ new.layout.size) (ha : ¬new.Byte a) :
    copyNonoverlapping mem src new.ptr count a = mem a :=
  if_neg fun h => ha ⟨h.1, h.2.trans_le (Nat.add_le_add_left hcount _)⟩

/-- The block moves to another one. -/
theorem RustInv.realloc_moves (law : Lawful B Holds) (rounds : Rounds B)
    {r₁ : RustState ι σ} {new : Live} (rinv₁ : RustInv B Holds r₁ g nodes)
    (allocated : Allocated r r₁ new) (idle : r.cache.pc t = .idle) (hblock : block ∈ r.blocks) :
    ∃ r' nodes', (r₁.setMem (copyNonoverlapping r₁.mem block.ptr new.ptr
        (min block.layout.size new.layout.size))).dealloc B t block = some r' ∧
      RustInv B Holds r' g nodes' ∧ Reallocated B r r' t block new := by
  have hblock₁ : block ∈ r₁.blocks := allocated.blocks ▸ Multiset.mem_cons_of_mem hblock
  have hnew : new ∈ r₁.blocks := allocated.blocks ▸ Multiset.mem_cons_self _ _
  have hothers : r₁.blocks.erase new = r.blocks := by
    rw [allocated.blocks, Multiset.erase_cons_head]
  have herase : r₁.blocks.erase block = new ::ₘ r.blocks.erase block := by
    rw [allocated.blocks, Multiset.erase_cons_tail_of_mem hblock]
  have apart : ∀ c ∈ r.blocks, ∀ a, new.Byte a → ¬c.Byte a := fun c hc a =>
    rinv₁.apart law hnew (hothers ▸ hc)
  have rinv₂ := rinv₁.write law hnew fun a ha =>
    copyNonoverlapping_of_not_byte r₁.mem block.ptr (min_le_right block.layout.size _) ha
  obtain ⟨r', nodes', hcall, rinv', released, -, kept⟩ := rinv₂.dealloc law rounds
    (t := t) (by exact allocated.pc ▸ idle) hblock₁
  have hnew₂ : new ∈ r₁.blocks.erase block := herase ▸ Multiset.mem_cons_self _ _
  have kept₂ : ∀ c ∈ r.blocks, ∀ a, c.Byte a → copyNonoverlapping r₁.mem block.ptr new.ptr
      (min block.layout.size new.layout.size) a = r.mem a := fun c hc a ha =>
    (copyNonoverlapping_of_not_byte r₁.mem block.ptr (min_le_right _ _)
      fun hbyte => apart c hc a hbyte ha).trans (allocated.kept c hc a ha)
  refine ⟨r', nodes', hcall, rinv', released.blocks.trans herase, allocated.pos,
    fun c hc => apart c (Multiset.mem_of_mem_erase hc), fun i hi => ?_, fun c hc a ha => ?_,
    fun heq => ?_, fun _ => ⟨r₁.setMem (copyNonoverlapping r₁.mem block.ptr new.ptr
      (min block.layout.size new.layout.size)),
      ⟨allocated.blocks, allocated.pos, allocated.pc, kept₂⟩, released⟩⟩
  · obtain ⟨hold, hlt⟩ := lt_min_iff.mp hi
    calc r'.mem (new.ptr + i)
      _ = copyNonoverlapping r₁.mem block.ptr new.ptr
          (min block.layout.size new.layout.size) (new.ptr + i) :=
        kept new hnew₂ _ ⟨Nat.le_add_right _ _, Nat.add_lt_add_left hlt _⟩
      _ = r₁.mem (block.ptr + i) := copyNonoverlapping_of_lt r₁.mem block.ptr new.ptr hi
      _ = r.mem (block.ptr + i) :=
        allocated.kept block hblock _ ⟨Nat.le_add_right _ _, Nat.add_lt_add_left hold _⟩
  · have hc' : c ∈ r₁.blocks.erase block := herase ▸ Multiset.mem_cons_of_mem hc
    exact (kept c hc' a ha).trans (kept₂ c (Multiset.mem_of_mem_erase hc) a ha)
  · exact absurd (heq ▸ rinv₁.byte_ptr hblock₁)
      (apart block hblock _ (rinv₁.byte_ptr hnew))

/-- A block is reallocated, unless the backend has no memory. -/
theorem RustInv.realloc (law : Lawful B Holds) (rounds : Rounds B)
    (rinv : RustInv B Holds r g nodes) (idle : r.cache.pc t = .idle) (hblock : block ∈ r.blocks)
    {newSize : Nat} (hsize : LayoutSize newSize) {mapped : Nat}
    (fresh : (largeBuild B).maps r.cache.heap mapped) :
    (∃ q r' g' nodes', r.realloc B t block newSize mapped = some (q, r') ∧
      RustInv B Holds r' g' nodes' ∧
      Reallocated B r r' t block ⟨q, newSize, block.layout.align⟩) ∨
    (r.realloc B t block newSize mapped = none ∨
      r.realloc B t block newSize mapped = some (0, r)) ∧ ¬Supplied B Holds r newSize := by
  by_cases hidx : (tcSizeClass.getSizeClass block.layout.size).index =
      (tcSizeClass.getSizeClass newSize).index
  · exact .inl ⟨block.ptr, _, g, nodes, if_pos hidx, (rinv.relabel hblock hsize hidx).1,
      rinv.realloc_stays law hblock hsize hidx⟩
  · rw [RustState.realloc]
    simp only [if_neg hidx]
    obtain ⟨ptr, r₁, g₁, nodes₁, hcall, rinv₁, allocated⟩ | ⟨hcall, hout⟩ :=
      rinv.alloc law rounds idle ⟨newSize, block.layout.align⟩ hsize fresh
    · obtain ⟨r', nodes', hmove, rinv', reallocated⟩ :=
        rinv₁.realloc_moves law rounds allocated idle hblock
      refine .inl ⟨ptr, r', g₁, nodes', ?_, rinv', reallocated⟩
      have hptr : ptr ≠ 0 := allocated.pos
      simp only [hcall, Option.bind_eq_bind, Option.bind_some, if_pos hptr]
      exact Option.bind_eq_some_iff.mpr ⟨_, hmove, rfl⟩
    · refine .inr ⟨hcall.imp (fun hcall => ?_) fun hcall => ?_, hout⟩
      · rw [hcall]
        rfl
      · rw [hcall]
        rfl

theorem RustInv.small (law : Lawful B Holds) (rinv : RustInv B Holds r g nodes) {m : Move}
    (enabled : r.cache.Enabled (largeBuild B) t (SmallRequest tcSizeClass) m)
    {cache : State ι (FixedBack σ)} (hcall : r.cache.exec (largeBuild B) t m = some cache) :
    ∃ g' nodes', RustInv B Holds { r with cache } g' nodes' := by
  have sound := largeBuild_sound law r.large r.mem
  obtain ⟨s', g', nodes', hexec, inv'⟩ | ⟨hnone, -⟩ := rinv.fixed.exec sound enabled
  · cases hcall.symm.trans hexec
    exact ⟨g', nodes', (rinv.of_fixed inv').1⟩
  · cases hcall.symm.trans hnone

theorem RustInv.step (law : Lawful B Holds) (rounds : Rounds B) (rinv : RustInv B Holds r g nodes)
    {m : RustMove ι} (hstep : RustStep B r m r') : ∃ g' nodes', RustInv B Holds r' g' nodes' := by
  obtain ⟨enabled, hexec⟩ := hstep
  cases m with
  | small t m =>
      obtain ⟨cache, hcall, hexec⟩ := Option.bind_eq_some_iff.mp hexec
      cases hexec
      exact rinv.small law enabled hcall
  | alloc t layout =>
      obtain ⟨-, hlarge, hsize⟩ := enabled
      obtain ⟨⟨ptr, r₁⟩, hcall, hexec⟩ := Option.bind_eq_some_iff.mp hexec
      cases hexec
      obtain ⟨ptr', r₂, hcall', rinv', -⟩ | ⟨hcall', -⟩ :=
        rinv.allocLarge law rounds (t := t) hlarge hsize 0
      · cases hcall.symm.trans hcall'
        exact ⟨g, nodes, rinv'⟩
      · cases hcall.symm.trans hcall'
        exact ⟨g, nodes, rinv⟩
  | dealloc t block =>
      obtain ⟨idle, hblock⟩ := enabled
      obtain ⟨r₁, hcall, rinv', -⟩ := rinv.deallocLarge law rounds (t := t) hblock
      cases hexec.symm.trans hcall
      exact ⟨g, nodes, rinv'⟩
  | store t block offset v =>
      obtain ⟨-, hblock, hoffset⟩ := enabled
      cases hexec
      refine ⟨g, nodes, rinv.write law (Multiset.mem_add.mpr (.inr hblock)) fun a ha => ?_⟩
      refine Function.update_of_ne ?_ _ _
      rintro rfl
      exact ha ⟨Nat.le_add_right _ _, Nat.add_lt_add_left hoffset _⟩
  | realloc t block newSize mapped =>
      obtain ⟨idle, hblock, hsize, fresh⟩ := enabled
      obtain ⟨⟨q, r₁⟩, hcall, hexec⟩ := Option.bind_eq_some_iff.mp hexec
      cases hexec
      obtain ⟨q', r₂, g', nodes', hcall', rinv', -⟩ | ⟨hcall' | hcall', -⟩ :=
        rinv.realloc law rounds idle hblock hsize fresh
      · cases hcall.symm.trans hcall'
        exact ⟨g', nodes', rinv'⟩
      · cases hcall.symm.trans hcall'
      · cases hcall.symm.trans hcall'
        exact ⟨g, nodes, rinv⟩

theorem fixedHolds_new {mem : Mem} {back : σ} (start : Holds back mem TreeNode.zeroed ∅) :
    FixedHolds Holds ⟨back, PageBumpAlloc.new, [], []⟩ mem TreeNode.zeroed ∅ := by
  have hown : (⟨back, PageBumpAlloc.new, [], []⟩ : FixedBack σ).own = ∅ := by
    simp [FixedBack.own]
  refine ⟨?_, List.nodup_nil, fun _ _ => Set.notMem_empty _, fun b hb => ?_⟩
  · rwa [hown, Set.union_empty]
  · exact absurd (hown ▸ hb) (Set.notMem_empty b)

omit [DecidableEq ι] in
theorem rustInv_new {mem : Mem} {back : σ} (start : Holds back mem TreeNode.zeroed ∅) :
    RustInv B Holds (RustState.new mem back : RustState ι σ) Ghost.new fun _ _ => [] where
  inv := inv_new rfl rfl PageBumpAlloc.ok_new (fixedHolds_new start)
  regions := rfl
  large := rfl
  sizes _ h := absurd h (Multiset.notMem_zero _)

theorem rustInv_run (law : Lawful B Holds) (rounds : Rounds B) {r₀ : RustState ι σ}
    {g₀ : Ghost Nat} {nodes₀ : ι → Nat → List Nat} (start : RustInv B Holds r₀ g₀ nodes₀)
    {tr : List (RustMove ι)} (run : Run (RustStep B) r₀ tr r) :
    ∃ g nodes, RustInv B Holds r g nodes :=
  run.invariant (I := fun r => ∃ g nodes, RustInv B Holds r g nodes) ⟨g₀, nodes₀, start⟩
    fun _ _ _ rinv hstep => by
      obtain ⟨g, nodes, rinv⟩ := rinv
      exact rinv.step law rounds hstep

/-- Where a block comes from: a small one is a chunk of a slab page of its class, a large one a
run of the backend; and it has room for its size. -/
def Belongs (r : RustState ι σ) (block : Live) : Prop :=
  match tcSizeClass.getSizeClass block.layout.size with
  | .base idx => ∃ rings nodes free, Conserved tcSizeClass r.cache rings nodes free ∧
      ∃ d ∈ pagesOf rings idx,
        block.ptr ∈ (configs tcSizeClass idx).chunks (r.cache.heap.desc d).data ∧
        block.layout.size ≤ (configs tcSizeClass idx).align
  | .large size => block.run ∈ r.large ∧ size ≤ PAGE_SIZE * block.run.num

omit [DecidableEq ι] in
theorem RustInv.belongs (law : Lawful B Holds) (rinv : RustInv B Holds r g nodes)
    (hblock : block ∈ r.blocks) : Belongs r block := by
  obtain ⟨hsmall, -⟩ | ⟨hlarge, -, hlt⟩ := rinv.mem_blocks hblock
  · have sound := defaultBuild_sound (fixedBackend_lawful law)
    obtain ⟨idx, d, hclass, hd, hchunk, hsize, -⟩ := rinv.inv.live_spans sound hsmall
    have hclass : tcSizeClass.getSizeClass block.layout.size = .base idx := hclass
    rw [Belongs, hclass]
    exact ⟨_, nodes, _, rinv.inv.conserved sound.law, d, mem_pagesOf.mpr hd, hchunk, hsize⟩
  · have hclass : tcSizeClass.getSizeClass block.layout.size = .large block.layout.size :=
      TcSizeClass.getSizeClass_large hlt
    rw [Belongs, hclass]
    refine ⟨rinv.run_mem hlarge, ?_⟩
    simp only [Live.run, numPages, PAGE_SIZE]
    omega

/-- In every reachable state `realloc` answers with a block of the new size that has the old
contents, the other blocks keep theirs, and the old block is released if it has moved. As long
as the program keeps the new block, it is where it came from, and can be released. -/
theorem realloc_keeps {mem : Mem} {back : σ} (law : Lawful B Holds) (rounds : Rounds B)
    (start : Holds back mem TreeNode.zeroed ∅) {tr : List (RustMove ι)}
    (run : Run (RustStep B) (RustState.new mem back) tr r) (idle : r.cache.pc t = .idle)
    (hblock : block ∈ r.blocks) {newSize mapped : Nat} (hsize : LayoutSize newSize)
    (fresh : (largeBuild B).maps r.cache.heap mapped) (supplied : Supplied B Holds r newSize) :
    ∃ new r', r.realloc B t block newSize mapped = some (new.ptr, r') ∧
      new.layout = ⟨newSize, block.layout.align⟩ ∧ Reallocated B r r' t block new ∧
      ∀ tr' r'', Run (RustStep B) r' tr' r'' → new ∈ r''.blocks → Belongs r'' new ∧
        ∀ u, r''.cache.pc u = .idle →
          ∃ r₃, r''.dealloc B u new = some r₃ ∧ Released B r'' r₃ u new := by
  obtain ⟨g, nodes, rinv⟩ := rustInv_run law rounds (rustInv_new start) run
  obtain ⟨q, r', g', nodes', hcall, rinv', reallocated⟩ | ⟨-, hout⟩ :=
    rinv.realloc law rounds idle hblock hsize fresh
  · refine ⟨_, r', hcall, rfl, reallocated, fun tr' r'' run' hnew => ?_⟩
    obtain ⟨g'', nodes'', rinv''⟩ := rustInv_run law rounds rinv' run'
    refine ⟨rinv''.belongs law hnew, fun u idle' => ?_⟩
    obtain ⟨r₃, -, hdealloc, -, released, -⟩ := rinv''.dealloc law rounds idle' hnew
    exact ⟨r₃, hdealloc, released⟩
  · exact absurd supplied hout

/-- A backend that rounds sizes up to whole pages. -/
def rounded (B : PageBackend σ) : PageBackend σ where
  alloc s mem tree size := B.alloc s mem tree (PAGE_SIZE * numPages size)
  dealloc s mem tree ptr size := B.dealloc s mem tree ptr (PAGE_SIZE * numPages size)

theorem numPages_mul (num : Nat) : numPages (PAGE_SIZE * num) = num := by
  simp only [numPages, PAGE_SIZE]
  omega

theorem rounded_lawful (law : Lawful B Holds) : Lawful (rounded B) Holds where
  placed := law.placed
  apart := law.apart
  tags := law.tags
  use := law.use
  alloc h hnum hcall := by
    simp only [rounded, numPages_mul] at hcall
    exact law.alloc h hnum hcall
  dealloc h hb hzero := by
    simp only [rounded, numPages_mul]
    exact law.dealloc h hb hzero

theorem rounded_rounds (B : PageBackend σ) : Rounds (rounded B) := fun s mem tree size _ => by
  simp only [rounded, numPages_mul, implies_true, and_self]

/-- One thread allocates a small block and a large one and writes to both. The small block
grows within its class and then into a large one, and the large one shrinks. -/
def growing : List (RustMove Bool) :=
  [.small false (.allocate ⟨20, 8⟩), .small false (.refill 0x7f0000000000),
    .alloc false ⟨40000, 8⟩, .store false ⟨0x1ff5000, ⟨40000, 8⟩⟩ 7 5,
    .small true (.store ⟨0x1fff000, ⟨20, 8⟩⟩ 16 3), .realloc true ⟨0x1fff000, ⟨20, 8⟩⟩ 24 0,
    .realloc true ⟨0x1ff5000, ⟨40000, 8⟩⟩ 50000 0]

/-- The state in which the small block is to grow into a large one. -/
def grown : RustState Bool (Nat × Nat) :=
  Path.last (RustState.new (fun _ => 0) (0x1000000, 0x2000000)) (play
    (RustState.move (rounded carving)) (RustState.new (fun _ => 0) (0x1000000, 0x2000000)) growing)

theorem realloc_keeps_grown :
    ∃ new r', grown.realloc (rounded carving) false ⟨0x1fff000, ⟨24, 8⟩⟩ 40000 0 =
        some (new.ptr, r') ∧ new.layout = ⟨40000, 8⟩ ∧
      Reallocated (rounded carving) grown r' false ⟨0x1fff000, ⟨24, 8⟩⟩ new := by
  have hinner : grown.cache.heap.back.inner = (0x1000000, 0x1fe8000) := by decide +kernel
  have run : Run (RustStep (rounded carving)) _ _ grown :=
    (play_path (fun h => RustState.move_step h) _ growing).run
  have hblock : ⟨0x1fff000, ⟨24, 8⟩⟩ ∈ grown.blocks := by decide +kernel
  have idle : grown.cache.pc false = .idle := by decide +kernel
  have fresh : (largeBuild (rounded carving)).maps grown.cache.heap 0 := by decide +kernel
  have hsize : LayoutSize 40000 := by decide
  have supplied : Supplied (rounded carving) Carved grown 40000 := fun mem held _ => by
    have hpages : pagesFor 40000 = 10 := by decide +kernel
    have fits : 0x1000000 + PAGE_SIZE * numPages (PAGE_SIZE * 10) ≤ 0x1fe8000 := by decide
    simp only [rounded, carving, hinner, hpages, if_pos fits]
    exact Option.some_ne_none _
  obtain ⟨new, r', hcall, hlayout, reallocated, -⟩ := realloc_keeps
    (rounded_lawful carving_lawful) (rounded_rounds carving) carved_region run idle hblock hsize
    fresh supplied
  exact ⟨new, r', hcall, hlayout, reallocated⟩

end UniAlloc.Cache
