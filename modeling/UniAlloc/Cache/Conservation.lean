import UniAlloc.Cache.Preservation

/-!
# Every chunk is in one place

Whatever small blocks any number of threads allocate and deallocate, a chunk of a slab
page is live, or a node of the list of one unit, or in the row of one unit, or free in
its page. Live blocks therefore do not overlap, and no call panics.
-/

namespace UniAlloc.Cache

open Slab Ledger Radix Transition

variable {ι σ : Type} [DecidableEq ι] [Fintype ι] {b : Build σ}
  {Holds : σ → Mem → RadixTree → Set FreeList.Block → Prop} {request : Nat → Prop}
  {s s' : State ι σ} {g g' : Ghost Nat} {nodes nodes' : ι → Nat → List Nat} {t : ι}

namespace Inv

/-- A move that a thread may make keeps the invariant. It panics only if it needs a run
of pages that the backend does not have. -/
theorem exec (sound : b.Sound Holds request) (inv : Inv b Holds request s g nodes) {m : Move}
    (enabled : s.Enabled b t request m) :
    (∃ s' g' nodes', s.exec b t m = some s' ∧ Inv b Holds request s' g' nodes') ∨
    s.exec b t m = none ∧ ∃ idx layout, s.pc t = .refill idx layout ∧
      b.exhausted s.heap (configs b.classes idx).pgNum := by
  cases m with
  | allocate layout =>
      obtain ⟨s', nodes', hexec, inv'⟩ := inv.allocate sound enabled.1 enabled.2
      exact .inl ⟨s', g, nodes', hexec, inv'⟩
  | refill mapped =>
      obtain ⟨⟨idx, layout, hpc⟩, fresh⟩ := enabled
      simp only [State.exec, hpc]
      obtain ⟨s', g', nodes', hexec, inv'⟩ | ⟨hexec, hout⟩ := inv.refill sound hpc fresh
      · exact .inl ⟨s', g', nodes', hexec, inv'⟩
      · exact .inr ⟨hexec, idx, layout, rfl, hout⟩
  | deallocate block =>
      obtain ⟨s', nodes', hexec, inv'⟩ := inv.deallocate sound enabled.1 enabled.2
      exact .inl ⟨s', g, nodes', hexec, inv'⟩
  | store block offset v =>
      exact .inl ⟨_, g, nodes, rfl, inv.store sound enabled.2.1 enabled.2.2 v⟩
  | exit => exact .inl ⟨_, g, nodes, rfl, inv.exit⟩
  | flush =>
      obtain ⟨idx, hpc⟩ := enabled
      simp only [State.exec, hpc]
      obtain ⟨nodes', inv'⟩ := inv.flush sound hpc
      exact .inl ⟨_, g, nodes', rfl, inv'⟩
  | giveBack =>
      obtain ⟨idx, hpc⟩ := enabled
      simp only [State.exec, hpc]
      obtain ⟨s', g', nodes', hexec, inv'⟩ := inv.giveBack sound hpc
      exact .inl ⟨s', g', nodes', hexec, inv'⟩

end Inv

omit [DecidableEq ι] in
theorem inv_new {C : SizeClasses} {heap : Heap σ} (hC : b.classes = C)
    (created : heap.created = []) (bump : heap.pgBump.Ok [])
    (holds : Holds heap.back heap.mem heap.tree ∅) :
    Inv b Holds request (State.new C heap : State ι σ) Ghost.new fun _ _ => [] where
  slab := by
    subst hC
    exact Slab.inv_new _ _ created bump holds
  lists _ _ := ThreadCacheUnit.lists_new
  total _ := by simp [State.new, liveChunks, ThreadCacheUnit.share, Ghost.new]
  unused _ _ _ := rfl
  live _ h := absurd h (Multiset.notMem_zero _)
  pcs _ := trivial

theorem inv_run (sound : b.Sound Holds request) {s₀ : State ι σ} {g₀ : Ghost Nat}
    {nodes₀ : ι → Nat → List Nat} (start : Inv b Holds request s₀ g₀ nodes₀)
    {tr : List (ι × Move)} (run : Run (Step b request) s₀ tr s) :
    ∃ g nodes, Inv b Holds request s g nodes := by
  refine run.invariant (I := fun s => ∃ g nodes, Inv b Holds request s g nodes)
    ⟨g₀, nodes₀, start⟩ ?_
  rintro u ⟨t, m⟩ v ⟨g, nodes, inv⟩ ⟨enabled, hexec⟩
  obtain ⟨s', g', nodes', hexec', inv'⟩ | ⟨hnone, -⟩ := inv.exec sound enabled
  · cases hexec.symm.trans hexec'
    exact ⟨g', nodes', inv'⟩
  · cases hexec.symm.trans hnone

/-- The descriptors of a class that have a slab page. -/
def pagesOf (rings : Nat → Kind → List Nat) (k : Nat) : Multiset Nat :=
  ↑(rings k .full ++ rings k .partially ++ rings k .empty)

/-- The chunks of the slab pages are divided between the live blocks, the lists and the rows
of the threads, and the slab pages themselves. -/
structure Conserved (C : SizeClasses) (s : State ι σ) (rings : Nat → Kind → List Nat)
    (nodes : ι → Nat → List Nat) (free : Nat → Nat → List Nat) : Prop where
  /-- The rings are linked, and begin where the allocator of the class says. -/
  ring : ∀ k kind, (s.slabs k).start kind = (rings k kind).headD 0 ∧
    LinkedRing (fun d => (s.heap.desc d).prev) (fun d => (s.heap.desc d).next) (rings k kind)
  /-- Every descriptor with a slab page is on a ring. -/
  mapped : ∀ d ∈ s.heap.created, (s.heap.desc d).data ≠ 0 → ∃ k, d ∈ pagesOf rings k
  /-- The lists of the threads are linked through memory. -/
  lists : ∀ t k, Segment s.heap.mem (s.caches t k).list.link (nodes t k) 0 ∧
    (s.caches t k).list.length = (nodes t k).length
  /-- So are the free chunks of a partially used page; an empty page has all its chunks. -/
  free_partially : ∀ k, ∀ d ∈ rings k .partially,
    Segment s.heap.mem (s.heap.desc d).ptr (free k d) 0
  free_full : ∀ k, ∀ d ∈ rings k .full, free k d = []
  free_empty : ∀ k, ∀ d ∈ rings k .empty, free k d = (configs C k).chunks (s.heap.desc d).data
  /-- Every chunk is in one of these places … -/
  places : ∀ k, (pagesOf rings k).bind (fun d => ↑((configs C k).chunks (s.heap.desc d).data)) =
    liveChunks C s.live k + (∑ t, (↑(nodes t k) : Multiset Nat)) +
      (∑ t, (↑(s.caches t k).row : Multiset Nat)) + (pagesOf rings k).bind fun d => ↑(free k d)
  /-- … and no chunk is in two of them. -/
  nodup : ∀ k, ((pagesOf rings k).bind
    fun d => (↑((configs C k).chunks (s.heap.desc d).data) : Multiset Nat)).Nodup

/-- The free chunks of a page on one of the rings. -/
def freeOf (C : SizeClasses) (desc : Descs) (g : Ghost Nat) (k d : Nat) : List Nat :=
  if d ∈ g.rings (k, .empty) then (configs C k).chunks (desc d).data else g.free d

theorem mem_pagesOf {k d : Nat} :
    d ∈ pagesOf (fun k kind => g.rings (k, kind)) k ↔ g.Mapped k d := by
  simp only [pagesOf, Multiset.mem_coe, List.mem_append]
  constructor
  · rintro ((hd | hd) | hd)
    · exact ⟨.full, by decide, hd⟩
    · exact ⟨.partially, by decide, hd⟩
    · exact ⟨.empty, by decide, hd⟩
  · rintro ⟨kind, hkind, hd⟩
    cases kind with
    | full => exact .inl (.inl hd)
    | partially => exact .inl (.inr hd)
    | empty => exact .inr hd
    | uninit => exact absurd rfl hkind

variable {C : SizeClasses} {slabs : Nat → SCAllocator} {h : Heap σ} {k d d' x : Nat}

theorem nodup_pagesOf (inv : Slab.Inv (configs C) Holds slabs h g) (k : Nat) :
    (pagesOf (fun k kind => g.rings (k, kind)) k).Nodup := by
  have nodup := fun kind => inv.threads.nodup (k, kind)
  have apart : ∀ {a c : Kind}, a ≠ c → ∀ d ∈ g.rings (k, a), d ∉ g.rings (k, c) :=
    fun hac d hd hd' => hac (inv.kind_unique hd hd')
  simp only [pagesOf, Multiset.coe_nodup]
  refine List.nodup_append'.mpr ⟨List.nodup_append'.mpr ⟨nodup _, nodup _, ?_⟩, nodup _, ?_⟩
  · exact fun d hd => apart (by decide) d hd
  · intro d hd
    obtain hd | hd := List.mem_append.mp hd
    · exact apart (by decide) d hd
    · exact apart (by decide) d hd

/-- Pages have no chunk in common, and no chunk twice. -/
theorem nodup_chunks (law : Lawful b.backend Holds)
    (inv : Slab.Inv (configs C) Holds slabs h g) (k : Nat) :
    ((pagesOf (fun k kind => g.rings (k, kind)) k).bind
      fun d => (↑((configs C k).chunks (h.desc d).data) : Multiset Nat)).Nodup := by
  refine Multiset.nodup_bind.mpr ⟨fun d hd => ?_, ?_⟩
  · exact Multiset.coe_nodup.mpr (inv.ok (mem_pagesOf.mp hd)).nodup_chunks
  · refine (nodup_pagesOf inv k).pairwise fun d hd d' hd' hne => ?_
    exact Multiset.disjoint_left.mpr fun hx hx' =>
      hne (inv.page_unique law (mem_pagesOf.mp hd) (mem_pagesOf.mp hd') hx hx')

theorem freeOf_subset (inv : Slab.Inv (configs C) Holds slabs h g) (hd : g.Mapped k d)
    (hx : x ∈ freeOf C h.desc g k d) : x ∈ (configs C k).chunks (h.desc d).data := by
  rw [freeOf] at hx
  split at hx
  · exact hx
  · next hempty =>
      obtain ⟨kind, hkind, hd⟩ := hd
      have page := inv.page hd
      cases kind with
      | full => exact page.2.1.sub x hx
      | partially => exact page.2.1.sub x hx
      | empty => exact absurd hd hempty
      | uninit => exact absurd rfl hkind

theorem nodup_freeOf (inv : Slab.Inv (configs C) Holds slabs h g) (hd : g.Mapped k d) :
    (freeOf C h.desc g k d).Nodup := by
  have ok := inv.ok hd
  rw [freeOf]
  split
  · exact ok.nodup_chunks
  · next hempty =>
      obtain ⟨kind, hkind, hd⟩ := hd
      have page := inv.page hd
      cases kind with
      | full => exact page.2.1.nodup
      | partially => exact page.2.1.nodup
      | empty => exact absurd hd hempty
      | uninit => exact absurd rfl hkind

/-- A chunk of a page is out or free. -/
theorem isOut_iff_not_free (inv : Slab.Inv (configs C) Holds slabs h g) (hd : g.Mapped k d)
    (hx : x ∈ (configs C k).chunks (h.desc d).data) :
    IsOut (configs C) h.desc g k d x ↔ x ∉ freeOf C h.desc g k d := by
  rw [freeOf]
  split
  · next hempty =>
      refine iff_of_false (fun hout => ?_) (not_not_intro hx)
      obtain hd' | hd' := hout.inUse
      · exact absurd (inv.kind_unique hempty hd') (by decide)
      · exact absurd (inv.kind_unique hempty hd') (by decide)
  · next hempty =>
      refine ⟨fun hout => hout.notFree, fun hfree => ⟨?_, hx, hfree⟩⟩
      obtain ⟨kind, hkind, hd⟩ := hd
      cases kind with
      | full => exact .inl hd
      | partially => exact .inr hd
      | empty => exact absurd hd hempty
      | uninit => exact absurd rfl hkind

/-- The chunks of the pages are those that are out and those that are free. -/
theorem chunks_eq (law : Lawful b.backend Holds) (inv : Slab.Inv (configs C) Holds slabs h g)
    (k : Nat) :
    (pagesOf (fun k kind => g.rings (k, kind)) k).bind
        (fun d => (↑((configs C k).chunks (h.desc d).data) : Multiset Nat)) =
      (g.out k).val +
        (pagesOf (fun k kind => g.rings (k, kind)) k).bind fun d => ↑(freeOf C h.desc g k d) := by
  refine (Multiset.Nodup.ext (nodup_chunks law inv k) ?_).mpr fun x => ?_
  · refine Multiset.nodup_add.mpr ⟨Finset.nodup _, Multiset.nodup_bind.mpr ⟨fun d hd => ?_, ?_⟩, ?_⟩
    · exact Multiset.coe_nodup.mpr (nodup_freeOf inv (mem_pagesOf.mp hd))
    · refine (nodup_pagesOf inv k).pairwise fun d hd d' hd' hne => ?_
      have hd := mem_pagesOf.mp hd
      have hd' := mem_pagesOf.mp hd'
      exact Multiset.disjoint_left.mpr fun hx hx' => hne (inv.page_unique law hd hd'
        (freeOf_subset inv hd hx) (freeOf_subset inv hd' hx'))
    · refine Multiset.disjoint_left.mpr fun hx hfree => ?_
      obtain ⟨d, hd, hfree⟩ := Multiset.mem_bind.mp hfree
      have hd := mem_pagesOf.mp hd
      obtain ⟨d', hout⟩ := inv.out.mp hx
      have hchunk := freeOf_subset inv hd hfree
      obtain rfl := inv.page_unique law hout.inUse.mapped hd hout.chunk hchunk
      exact (isOut_iff_not_free inv hd hchunk).mp hout hfree
  · simp only [Multiset.mem_add, Multiset.mem_bind, mem_pagesOf, Multiset.mem_coe, Finset.mem_val]
    constructor
    · rintro ⟨d, hd, hx⟩
      by_cases hfree : x ∈ freeOf C h.desc g k d
      · exact .inr ⟨d, hd, hfree⟩
      · exact .inl (inv.out.mpr ⟨d, (isOut_iff_not_free inv hd hx).mpr hfree⟩)
    · rintro (hx | ⟨d, hd, hx⟩)
      · obtain ⟨d, hout⟩ := inv.out.mp hx
        exact ⟨d, hout.inUse.mapped, hout.chunk⟩
      · exact ⟨d, hd, freeOf_subset inv hd hx⟩

omit [DecidableEq ι] in
theorem Inv.conserved (law : Lawful b.backend Holds) (inv : Inv b Holds request s g nodes) :
    Conserved b.classes s (fun k kind => g.rings (k, kind)) nodes
      (freeOf b.classes s.heap.desc g) where
  ring k kind := ⟨inv.slab.threads.start_eq (k, kind), inv.slab.threads.ring (k, kind)⟩
  mapped d hd hdata := by
    obtain ⟨⟨k, kind⟩, hd⟩ := inv.slab.created.mp hd
    refine ⟨k, mem_pagesOf.mpr ⟨kind, ?_, hd⟩⟩
    rintro rfl
    exact hdata (inv.slab.page hd).1
  lists t k := ⟨(inv.lists t k).linked, (inv.lists t k).length⟩
  free_partially k d hd := by
    rw [freeOf, if_neg]
    · exact (inv.slab.page hd).2.1.chain
    · exact fun hd' => absurd (inv.slab.kind_unique hd hd') (by decide)
  free_full k d hd := by
    rw [freeOf, if_neg]
    · exact (inv.slab.page hd).2.2
    · exact fun hd' => absurd (inv.slab.kind_unique hd hd') (by decide)
  free_empty k d hd := if_pos hd
  places k := by
    rw [chunks_eq law inv.slab, ← inv.total k]
    simp only [ThreadCacheUnit.share, ← Multiset.coe_add, Finset.sum_add_distrib]
    ac_rfl
  nodup := nodup_chunks law inv.slab

omit [DecidableEq ι] in
/-- A live block lies in a chunk of a slab page of its class. -/
theorem Inv.live_spans (sound : b.Sound Holds request) (inv : Inv b Holds request s g nodes)
    {block : Live} (hblock : block ∈ s.live) :
    ∃ k d, b.classes.getSizeClass block.layout.size = .base k ∧ g.Mapped k d ∧
      block.ptr ∈ (configs b.classes k).chunks (s.heap.desc d).data ∧
      block.layout.size ≤ (configs b.classes k).align ∧
      (s.heap.desc d).data ≤ block.ptr ∧ block.ptr + block.layout.size ≤
        (s.heap.desc d).data + PAGE_SIZE * (configs b.classes k).pgNum := by
  obtain ⟨k, hk, -, hsize, hout⟩ := inv.live_chunk sound hblock
  obtain ⟨d, hd⟩ := inv.slab.out.mp hout
  obtain ⟨hle, hle'⟩ := (inv.slab.ok hd.inUse.mapped).chunk_le hd.chunk
  exact ⟨k, d, hk, hd.inUse.mapped, hd.chunk, hsize, hle, by omega⟩

omit [DecidableEq ι] in
/-- Two live blocks do not overlap. -/
theorem Inv.live_disjoint (sound : b.Sound Holds request) (inv : Inv b Holds request s g nodes)
    {block other : Live} {rest : Multiset Live} (hlive : s.live = block ::ₘ other ::ₘ rest) :
    block.ptr + block.layout.size ≤ other.ptr ∨ other.ptr + other.layout.size ≤ block.ptr := by
  have hblock : block ∈ s.live := by simp [hlive]
  have hother : other ∈ s.live := by simp [hlive]
  obtain ⟨k, hk, -, hsize, hout⟩ := inv.live_chunk sound hblock
  obtain ⟨k', hk', -, hsize', hout'⟩ := inv.live_chunk sound hother
  have hne : k ≠ k' ∨ block.ptr ≠ other.ptr := by
    by_contra h
    obtain ⟨rfl, hptr⟩ : k = k' ∧ block.ptr = other.ptr := by simpa [not_or] using h
    have := (Multiset.nodup_add.mp (inv.nodup k)).1
    rw [hlive, liveChunks_cons _ hk, liveChunks_cons _ hk', hptr] at this
    exact (Multiset.nodup_cons.mp this).1 (Multiset.mem_cons_self _ _)
  have := inv.slab.out_apart sound.law hout hout' hne
  omega

/-- In every reachable state every chunk of every slab page is in exactly one place, live
blocks span their size and do not overlap, and the next move of any thread panics only if
the backend has no memory. -/
theorem chunks_conserved {B : PageBackend σ} {mem : Mem} {back : σ} {tr : List (ι × Move)}
    (law : Lawful B Holds) (start : Holds back mem TreeNode.zeroed ∅)
    (run : Run (Step (defaultBuild B) (SmallRequest tcSizeClass))
      (State.new tcSizeClass (Heap.new mem back)) tr s) :
    ∃ rings nodes free, Conserved tcSizeClass s rings nodes free ∧
      (∀ block ∈ s.live, ∃ k, ∃ d ∈ pagesOf rings k,
        tcSizeClass.getSizeClass block.layout.size = .base k ∧
        block.ptr ∈ (configs tcSizeClass k).chunks (s.heap.desc d).data ∧
        (s.heap.desc d).data ≤ block.ptr ∧ block.ptr + block.layout.size ≤
          (s.heap.desc d).data + PAGE_SIZE * (configs tcSizeClass k).pgNum) ∧
      (∀ block other rest, s.live = block ::ₘ other ::ₘ rest →
        block.ptr + block.layout.size ≤ other.ptr ∨
          other.ptr + other.layout.size ≤ block.ptr) ∧
      ∀ t m, s.Enabled (defaultBuild B) t (SmallRequest tcSizeClass) m →
        s.exec (defaultBuild B) t m = none →
          ∃ idx layout, s.pc t = .refill idx layout ∧ B.alloc s.heap.back s.heap.mem s.heap.tree
            (PAGE_SIZE * (configs tcSizeClass idx).pgNum) = none := by
  have sound := defaultBuild_sound law
  obtain ⟨g, nodes, inv⟩ := inv_run sound
    (inv_new rfl rfl PageBumpAlloc.ok_new start) run
  refine ⟨_, nodes, _, inv.conserved law, fun block hblock => ?_, fun block other rest hlive =>
    inv.live_disjoint sound hlive, fun t m enabled hnone => ?_⟩
  · obtain ⟨k, d, hk, hd, hchunk, -, hle, hle'⟩ := inv.live_spans sound hblock
    exact ⟨k, d, mem_pagesOf.mpr hd, hk, hchunk, hle, hle'⟩
  · obtain ⟨s', g', nodes', hexec, -⟩ | ⟨-, hout⟩ := inv.exec sound enabled
    · cases hnone.symm.trans hexec
    · exact hout

/-- One thread allocates two blocks of `1024` bytes and writes to them. The other one frees
the first block, allocates blocks with larger alignments, and ends. -/
def handover : List (Bool × Move) :=
  [(false, .allocate ⟨1000, 8⟩), (false, .refill 0x7f0000000000), (true, .allocate ⟨24, 64⟩),
    (false, .store ⟨0x1ff8000, ⟨1000, 8⟩⟩ 8 77), (true, .refill 0), (false, .allocate ⟨1024, 1⟩),
    (true, .deallocate ⟨0x1ff8000, ⟨1000, 8⟩⟩), (true, .allocate ⟨20, 512⟩),
    (false, .store ⟨0x1ff8400, ⟨1024, 1⟩⟩ 1016 0x1ff8000), (true, .allocate ⟨1010, 8⟩),
    (true, .deallocate ⟨0x1ff8400, ⟨1024, 1⟩⟩), (true, .exit), (true, .flush), (true, .giveBack),
    (true, .flush), (false, .allocate ⟨700, 16⟩), (true, .giveBack), (false, .refill 0)]

theorem chunks_conserved_handover :
    let s₀ : State Bool (Nat × Nat) :=
      State.new tcSizeClass (Heap.new (fun _ => 0) (0x1000000, 0x2000000))
    ∃ rings nodes free, Conserved tcSizeClass
      (Path.last s₀ (play (State.move (defaultBuild carving) · (SmallRequest tcSizeClass)) s₀
        handover)) rings nodes free := by
  intro s₀
  obtain ⟨rings, nodes, free, conserved, -⟩ := chunks_conserved carving_lawful carved_region
    (play_path (fun h => State.move_step h) s₀ handover).run
  exact ⟨rings, nodes, free, conserved⟩

end UniAlloc.Cache
