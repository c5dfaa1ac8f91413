import UniAlloc.Cache.Conservation
import UniAlloc.Cache.FixedDescs

/-!
# Blocks of the build with a fixed heap

Small blocks have room for their requests as long as every request is rounded up to a
power of two. Other requests get a class that is too small, or no class.
-/

namespace UniAlloc.Cache

open FreeList Radix Slab Transition

variable {ι σ : Type} [DecidableEq ι] {B : PageBackend σ}
  {Holds : σ → Mem → RadixTree → Set Block → Prop} {s s' : State ι (FixedBack σ)} {t : ι}

/-- What happens in a heap that is shared by small and large blocks. A large request is for
so many pages. -/
inductive FixedMove (ι : Type) where
  | small (t : ι) (m : Move)
  | allocateLarge (num : Nat)
  | deallocateLarge (block : Block)

variable (B) in
/-- `ZoneAllocator::allocate_large`, if there is memory for the block. -/
def State.allocateLarge (s : State ι (FixedBack σ)) (num : Nat) :
    Option (State ι (FixedBack σ)) := do
  let (ptr, inner, mem, tree) ←
    B.alloc s.heap.back.inner s.heap.mem s.heap.tree (PAGE_SIZE * num)
  let back := { s.heap.back with inner, large := ⟨ptr, num⟩ :: s.heap.back.large }
  some { s with heap := { s.heap with back, mem, tree } }

variable (B) in
/-- `ZoneAllocator::deallocate_large`. -/
def State.deallocateLarge (s : State ι (FixedBack σ)) (block : Block) :
    Option (State ι (FixedBack σ)) := do
  let (inner, mem, tree) ←
    B.dealloc s.heap.back.inner s.heap.mem s.heap.tree block.ptr (PAGE_SIZE * block.num)
  let back := { s.heap.back with inner, large := s.heap.back.large.erase block }
  some { s with heap := { s.heap with back, mem, tree } }

/-- A move in the build with a fixed heap. `given` says what is assumed of the heap when the
slab allocator is called. -/
def FixedStep (B : PageBackend σ) (given : Heap (FixedBack σ) → Prop) (request : Nat → Prop)
    (s : State ι (FixedBack σ)) (m : FixedMove ι) (s' : State ι (FixedBack σ)) : Prop :=
  match m with
  | .small t m => Step (fixedBuild B given) request s (t, m) s'
  | .allocateLarge num => 0 < num ∧ s.allocateLarge B num = some s'
  | .deallocateLarge block => block ∈ s.heap.back.large ∧ s.deallocateLarge B block = some s'

instance (given : Heap (FixedBack σ) → Prop) [DecidablePred given] (heap : Heap (FixedBack σ))
    (mapped : Nat) : Decidable ((fixedBuild B given).maps heap mapped) :=
  inferInstanceAs (Decidable (given heap))

variable (B) in
/-- The step a move stands for, if it is possible. -/
def State.fixedMove (given : Heap (FixedBack σ) → Prop) (request : Nat → Prop)
    [DecidablePred given] [DecidablePred request] (s : State ι (FixedBack σ)) :
    FixedMove ι → Option (FixedMove ι × State ι (FixedBack σ))
  | .small t m => (s.move (fixedBuild B given) request (t, m)).map fun x => (.small t m, x.2)
  | .allocateLarge num =>
      if 0 < num then (s.allocateLarge B num).map fun s' => (.allocateLarge num, s') else none
  | .deallocateLarge block =>
      if block ∈ s.heap.back.large then
        (s.deallocateLarge B block).map fun s' => (.deallocateLarge block, s')
      else none

theorem State.fixedMove_step {given : Heap (FixedBack σ) → Prop} {request : Nat → Prop}
    [DecidablePred given] [DecidablePred request] {m : FixedMove ι}
    {x : FixedMove ι × State ι (FixedBack σ)}
    (h : s.fixedMove B given request m = some x) : FixedStep B given request s x.1 x.2 := by
  cases m with
  | small t m =>
      obtain ⟨y, hmove, rfl⟩ := Option.map_eq_some_iff.mp h
      obtain ⟨enabled, hmove⟩ := Option.ite_none_right_eq_some.mp hmove
      obtain ⟨s', hexec, rfl⟩ := Option.map_eq_some_iff.mp hmove
      exact ⟨enabled, hexec⟩
  | allocateLarge num =>
      obtain ⟨hnum, h⟩ := Option.ite_none_right_eq_some.mp h
      obtain ⟨s', hcall, rfl⟩ := Option.map_eq_some_iff.mp h
      exact ⟨hnum, hcall⟩
  | deallocateLarge block =>
      obtain ⟨hblock, h⟩ := Option.ite_none_right_eq_some.mp h
      obtain ⟨s', hcall, rfl⟩ := Option.map_eq_some_iff.mp h
      exact ⟨hblock, hcall⟩

/-- The calls that leave the slab allocators alone, and those that give chunks back. -/
theorem exec_kept {given : Heap (FixedBack σ) → Prop} {m : Move}
    (hm : ∀ mapped, m ≠ .refill mapped)
    (hexec : s.exec (fixedBuild B given) t m = some s') : Kept s.heap s'.heap := by
  cases m with
  | allocate layout =>
      simp only [State.exec, State.allocate] at hexec
      split at hexec
      · split at hexec
        · cases hexec
          exact .refl _
        · split at hexec
          · obtain ⟨⟨unit, mem, ans⟩, -, hexec⟩ := Option.bind_eq_some_iff.mp hexec
            simp only at hexec
            split at hexec <;>
              · cases hexec
                exact ⟨rfl, rfl, rfl⟩
          · cases hexec
      · cases hexec
  | refill mapped => exact absurd rfl (hm mapped)
  | deallocate block =>
      simp only [State.exec, State.deallocate] at hexec
      split at hexec
      · split at hexec
        · cases hexec
          exact .refl _
        · split at hexec <;> cases hexec
          exact ⟨rfl, rfl, rfl⟩
      · cases hexec
  | store block offset v =>
      cases hexec
      exact ⟨rfl, rfl, rfl⟩
  | exit =>
      cases hexec
      exact .refl _
  | flush =>
      simp only [State.exec] at hexec
      split at hexec <;> cases hexec
      rw [State.flush]
      split
      · exact ⟨rfl, rfl, rfl⟩
      · exact .refl _
  | giveBack =>
      simp only [State.exec] at hexec
      split at hexec
      · obtain ⟨⟨slab, heap⟩, hcall, hexec⟩ := Option.bind_eq_some_iff.mp hexec
        cases hexec
        split at hcall
        · have kept := deallocateBatch_kept hcall
          exact ⟨kept.created, kept.pgBump, kept.regions⟩
        · cases hcall
          exact ⟨rfl, rfl, rfl⟩
      · cases hexec

/-- A batch that needs a new descriptor takes it from `PG_BUMP`. -/
theorem FixedDescs.allocateBatch (law : Lawful B Holds) {slab slab' : SCAllocator}
    {h h' : Heap (FixedBack σ)} {held : Set Block} {align : Nat} {r : Nat × Nat × Option Nat}
    (descs : FixedDescs h.created h.back) (holds : FixedHolds Holds h.back h.mem h.tree held)
    (room : HasRoom h.back.pgBump)
    (hcall : fixedAllocateBatch B slab h align = some (slab', h', r)) :
    FixedDescs h'.created h'.back := by
  rw [fixedAllocateBatch] at hcall
  split at hcall
  · next needs =>
      obtain ⟨⟨d, back, mem, tree⟩, htake, hcall⟩ := Option.bind_eq_some_iff.mp hcall
      obtain ⟨-, -, -, descs'⟩ := descs.take law holds room htake
      obtain ⟨hno, -⟩ | ⟨-, hcreated, hbump, hregions⟩ := allocateBatchV2_kept hcall
      · exact absurd needs hno
      · have hroom : ¬PageBumpAlloc.Exhausted ⟨d, d + OBJECT_PAGE_SIZE⟩ := by
          simp only [PageBumpAlloc.Exhausted, PageBumpAlloc.DEFAULT_SIZE, OBJECT_PAGE_SIZE,
            PAGE_SIZE]
          omega
        simp only [PageBumpAlloc.alloc, if_neg hroom] at hcreated
        have hcreated : h'.created = d :: h.created := by simpa using hcreated
        rw [hcreated]
        exact ⟨hbump ▸ hregions ▸ descs'.region, hregions ▸ descs'.inside, hbump ▸ descs'.off⟩
  · next needs =>
      obtain ⟨-, kept⟩ | ⟨hneeds, -⟩ := allocateBatchV2_kept hcall
      · exact kept.descs descs
      · exact absurd hneeds needs

section

variable {b : Build (FixedBack σ)}
  {HoldsOf : FixedBack σ → Mem → RadixTree → Set Block → Prop} {request : Nat → Prop}
  {g : Ghost Nat} {nodes : ι → Nat → List Nat} [Fintype ι]

omit [DecidableEq ι] in
/-- The backend moves and leaves the runs of the slab allocators alone. -/
theorem Inv.backed (sound : b.Sound HoldsOf request) (inv : Inv b HoldsOf request s g nodes)
    {back : FixedBack σ} {mem : Mem} {tree : RadixTree}
    (same : SameOn (runs (configs b.classes) s.heap.desc g) s.heap.mem mem s.heap.tree tree)
    (holds : HoldsOf back mem tree (runs (configs b.classes) s.heap.desc g)) :
    Inv b HoldsOf request { s with heap := { s.heap with back, mem, tree } } g nodes :=
  { inv with
    slab := slabInv_backed sound.law inv.slab same holds inv.slab.bump
    lists := fun t k => (inv.lists t k).congr fun x hx => by
      have hout := inv.out_of_share (ThreadCacheUnit.mem_share_of_node (s.caches t k) hx)
      have := (inv.slab.ok_of_out hout).align_pos
      exact same.mem x (inv.slab.out_held sound.law hout le_rfl (by omega)) }

end

/-- The invariant of the build with a fixed heap. -/
structure FixedInv [Fintype ι] (B : PageBackend σ)
    (Holds : σ → Mem → RadixTree → Set Block → Prop) (s : State ι (FixedBack σ)) (g : Ghost Nat)
    (nodes : ι → Nat → List Nat) : Prop where
  inv : Inv (fixedBuild B (FreshDesc B)) (FixedHolds Holds) ServedRequest s g nodes
  descs : FixedDescs s.heap.created s.heap.back

/-- What is assumed of a slab allocator call in a heap with room for descriptors. -/
def RoomLeft (heap : Heap (FixedBack σ)) : Prop := HasRoom heap.back.pgBump

instance : DecidablePred (RoomLeft (σ := σ)) := fun _ => inferInstanceAs (Decidable (HasRoom _))

variable [Fintype ι] {g : Ghost Nat} {nodes : ι → Nat → List Nat}

omit [DecidableEq ι] in
theorem FixedInv.fresh (law : Lawful B Holds) (fixed : FixedInv B Holds s g nodes)
    (room : RoomLeft s.heap) : FreshDesc B s.heap := by
  intro d back mem tree htake
  obtain ⟨hpos, hbound, hoff, -⟩ := fixed.descs.take law fixed.inv.slab.holds room htake
  refine ⟨hpos, hbound, fun d' hd' => (hoff d' hd').imp (fun h => ?_) id⟩
  rw [OBJECT_PAGE_SIZE] at h
  omega

/-- One move of a thread. -/
theorem FixedInv.small (law : Lawful B Holds) (fixed : FixedInv B Holds s g nodes) {m : Move}
    (step : Step (fixedBuild B RoomLeft) ServedRequest s (t, m) s') :
    ∃ g' nodes', FixedInv B Holds s' g' nodes' := by
  obtain ⟨enabled, hexec⟩ := step
  have hexec' : s.exec (fixedBuild B (FreshDesc B)) t m = some s' := by
    rw [← hexec]
    cases m <;> rfl
  have enabled' : s.Enabled (fixedBuild B (FreshDesc B)) t ServedRequest m := by
    cases m with
    | refill mapped => exact ⟨enabled.1, fixed.fresh law enabled.2⟩
    | allocate _ => exact enabled
    | deallocate _ => exact enabled
    | store _ _ _ => exact enabled
    | exit => exact enabled
    | flush => exact enabled
    | giveBack => exact enabled
  have descs : FixedDescs s'.heap.created s'.heap.back := by
    by_cases hm : ∀ mapped, m ≠ .refill mapped
    · exact (exec_kept hm hexec).descs fixed.descs
    · obtain ⟨mapped, rfl⟩ : ∃ mapped, m = .refill mapped := by simpa using hm
      obtain ⟨⟨idx, layout, hpc⟩, room⟩ := enabled
      simp only [State.exec, hpc] at hexec
      obtain ⟨⟨slab, heap, batch⟩, hcall, hexec⟩ := Option.bind_eq_some_iff.mp hexec
      obtain ⟨⟨unit, ans⟩, -, hexec⟩ := Option.bind_eq_some_iff.mp hexec
      cases hexec
      exact fixed.descs.allocateBatch law fixed.inv.slab.holds room hcall
  obtain ⟨s'', g', nodes', hnext, inv'⟩ | ⟨hnone, -⟩ :=
    fixed.inv.exec (fixedBuild_sound law) enabled'
  · cases hexec'.symm.trans hnext
    exact ⟨g', nodes', inv', descs⟩
  · cases hexec'.symm.trans hnone

omit [DecidableEq ι] in
/-- A large block is taken from the backend. -/
theorem FixedInv.allocateLarge (law : Lawful B Holds) (fixed : FixedInv B Holds s g nodes)
    {num : Nat} (hnum : 0 < num) (hcall : s.allocateLarge B num = some s') :
    FixedInv B Holds s' g nodes := by
  obtain ⟨⟨ptr, inner, mem, tree⟩, hinner, hcall⟩ := Option.bind_eq_some_iff.mp hcall
  cases hcall
  have holds : FixedHolds Holds s.heap.back s.heap.mem s.heap.tree _ := fixed.inv.slab.holds
  obtain ⟨holds', same⟩ := holds.take law { s.heap.back with
    inner, large := ⟨ptr, num⟩ :: s.heap.back.large } hnum hinner List.perm_middle
  exact ⟨fixed.inv.backed (fixedBuild_sound law) same holds', fixed.descs.region,
    fixed.descs.inside, fixed.descs.off⟩

omit [DecidableEq ι] in
/-- A large block is given back to the backend. -/
theorem FixedInv.deallocateLarge (law : Lawful B Holds) (fixed : FixedInv B Holds s g nodes)
    {block : Block} (hblock : block ∈ s.heap.back.large)
    (hcall : s.deallocateLarge B block = some s') : FixedInv B Holds s' g nodes := by
  obtain ⟨⟨inner, mem, tree⟩, hinner, hcall⟩ := Option.bind_eq_some_iff.mp hcall
  cases hcall
  have holds : FixedHolds Holds s.heap.back s.heap.mem s.heap.tree _ := fixed.inv.slab.holds
  have perm : (s.heap.back.regions ++ s.heap.back.large).Perm
      (block :: (s.heap.back.regions ++ s.heap.back.large.erase block)) :=
    ((List.perm_cons_erase hblock).append_left _).trans List.perm_middle
  obtain ⟨holds', same⟩ := holds.give law { s.heap.back with
    inner, large := s.heap.back.large.erase block } (List.mem_append_right _ hblock) hinner perm
  exact ⟨fixed.inv.backed (fixedBuild_sound law) same holds', fixed.descs.region,
    fixed.descs.inside, fixed.descs.off⟩

theorem fixed_run (law : Lawful B Holds) {s₀ : State ι (FixedBack σ)}
    {g₀ : Ghost Nat} {nodes₀ : ι → Nat → List Nat} (start : FixedInv B Holds s₀ g₀ nodes₀)
    {tr : List (FixedMove ι)} (run : Run (FixedStep B RoomLeft ServedRequest) s₀ tr s) :
    ∃ g nodes, FixedInv B Holds s g nodes := by
  refine run.invariant (I := fun s => ∃ g nodes, FixedInv B Holds s g nodes)
    ⟨g₀, nodes₀, start⟩ ?_
  rintro u m v ⟨g, nodes, fixed⟩ step
  cases m with
  | small t m => exact fixed.small law step
  | allocateLarge num => exact ⟨g, nodes, fixed.allocateLarge law step.1 step.2⟩
  | deallocateLarge block => exact ⟨g, nodes, fixed.deallocateLarge law step.1 step.2⟩

/-- The class of a request is an index of the table and has room for it, or the request is
large. -/
def ClassFits (size : Nat) : Prop :=
  match smallSizeClass.getSizeClass size with
  | .base idx => idx < smallSizeClass.TOTAL_SIZE_CLASS ∧
      size ≤ smallSizeClass.getRoundedSizeByIdx idx
  | .large _ => True

/-- The request is rounded up to a power of two, or large. -/
def PowerOrLarge (size : Nat) : Prop :=
  isPowerOfTwo (SmallSizeClass.finalSize size) = true ∨
    SmallSizeClass.MAX_SIZE < SmallSizeClass.finalSize size

theorem classFits_iff {size : Nat} (h : size < 2 ^ 63) : ClassFits size ↔ PowerOrLarge size := by
  have hclass : smallSizeClass.getSizeClass size =
      if SmallSizeClass.finalSize size ≤ SmallSizeClass.MAX_SIZE then
        .base (trailingZeros (SmallSizeClass.finalSize size) - 2)
      else .large size := rfl
  by_cases hsmall : SmallSizeClass.finalSize size ≤ SmallSizeClass.MAX_SIZE
  · rw [if_pos hsmall] at hclass
    rw [ClassFits, hclass, PowerOrLarge, or_iff_left hsmall.not_gt]
    refine Iff.trans ⟨fun fits => ?_, fun ⟨idx, rounds⟩ => ?_⟩
      ((smallSizeClass_rounds_iff h).trans (and_iff_right hsmall))
    · refine ⟨_, hclass, Nat.pos_of_ne_zero fun hzero => ?_, fits.1, fits.2⟩
      have hle : size ≤ smallSizeClass.getRoundedSizeByIdx 0 := hzero ▸ fits.2
      obtain rfl : size = 0 := Nat.eq_zero_of_le_zero hle
      exact absurd hzero (by decide)
    · obtain rfl := SizeClass.base.inj (hclass.symm.trans rounds.class_eq)
      exact ⟨rounds.lt, rounds.size_le⟩
  · rw [if_neg hsmall] at hclass
    rw [ClassFits, hclass]
    exact iff_of_true trivial (.inr (not_le.mp hsmall))

/-- The live blocks have room, and no one else uses their bytes: no other block, no free list
of a thread, and no free list of a slab page. A link takes eight bytes. -/
structure Roomy (s : State ι (FixedBack σ)) (rings : Nat → Kind → List Nat)
    (nodes : ι → Nat → List Nat) (free : Nat → Nat → List Nat) : Prop where
  spans : ∀ block ∈ s.live, ∃ k, ∃ d ∈ pagesOf rings k,
    smallSizeClass.getSizeClass block.layout.size = .base k ∧
    block.ptr ∈ (configs smallSizeClass k).chunks (s.heap.desc d).data ∧
    block.layout.size ≤ (configs smallSizeClass k).align
  blocks : ∀ block other rest, s.live = block ::ₘ other ::ₘ rest →
    block.ptr + block.layout.size ≤ other.ptr ∨ other.ptr + other.layout.size ≤ block.ptr
  large : ∀ block ∈ s.live, ∀ b ∈ s.heap.back.large,
    block.ptr + block.layout.size ≤ b.ptr ∨ b.ptr + b.num * PG_SIZE ≤ block.ptr
  lists : ∀ block ∈ s.live, ∀ t k, ∀ x ∈ nodes t k,
    block.ptr + block.layout.size ≤ x ∨ x + 8 ≤ block.ptr
  pages : ∀ block ∈ s.live, ∀ k, ∀ d ∈ pagesOf rings k, ∀ x ∈ free k d,
    block.ptr + block.layout.size ≤ x ∨ x + 8 ≤ block.ptr

/-- The classes of eight bytes and more. -/
theorem eight_le_rounded : ∀ k < 10, 0 < smallSizeClass.getRoundedSizeByIdx k →
    0 < k ∧ 8 ≤ smallSizeClass.getRoundedSizeByIdx k := by
  decide

theorem eight_le_align {k : Nat} (ok : (configs smallSizeClass k).Ok) :
    8 ≤ (configs smallSizeClass k).align := by
  have hpos : 0 < smallSizeClass.getRoundedSizeByIdx k := by
    by_contra hzero
    have hnew : configs smallSizeClass k = Config.of (SCAllocator.new 0 1) := by
      rw [configs, slabsNew, Nat.eq_zero_of_not_pos hzero]
      rfl
    have := hnew ▸ ok.count_pos
    exact absurd this (by decide)
  have hlt : k < 10 := by
    by_contra hge
    have hzero : smallSizeClass.getRoundedSizeByIdx k = 0 :=
      by
      rw [show smallSizeClass.getRoundedSizeByIdx k = SmallSizeClass.SIZE_ARRAY.getD k 0 from rfl,
        List.getD_eq_getElem?_getD, List.getElem?_eq_none (not_lt.mp hge), Option.getD_none]
    omega
  obtain ⟨hk, hsize⟩ := eight_le_rounded k hlt hpos
  exact hsize.trans (size_le_align smallSizeClass_sound ⟨hk, hlt⟩)

omit [DecidableEq ι] in
/-- A chunk of a page that is not the block itself lies off the block. -/
theorem FixedInv.chunk_off (law : Lawful B Holds) (fixed : FixedInv B Holds s g nodes)
    {block : Live} (hblock : block ∈ s.live) {k d x : Nat} (hd : g.Mapped k d)
    (hx : x ∈ (configs smallSizeClass k).chunks (s.heap.desc d).data) (hne : x ≠ block.ptr) :
    block.ptr + block.layout.size ≤ x ∨ x + 8 ≤ block.ptr := by
  have sound := fixedBuild_sound law
  obtain ⟨j, d', -, hd', hchunk, hsize, -⟩ := fixed.inv.live_spans sound hblock
  have halign := eight_le_align (fixed.inv.slab.ok hd)
  have : block.ptr + (configs smallSizeClass j).align ≤ x ∨
      x + (configs smallSizeClass k).align ≤ block.ptr :=
    fixed.inv.slab.chunk_apart sound.law hd' hd hchunk hx (.inr hne.symm)
  have hsize : block.layout.size ≤ (configs smallSizeClass j).align := hsize
  omega

omit [DecidableEq ι] in
theorem FixedInv.roomy (law : Lawful B Holds) (fixed : FixedInv B Holds s g nodes) :
    Roomy s (fun k kind => g.rings (k, kind)) nodes (freeOf smallSizeClass s.heap.desc g) := by
  have sound := fixedBuild_sound law
  have inv := fixed.inv
  refine ⟨fun block hblock => ?_, fun block other rest hlive => ?_, fun block hblock b hb => ?_,
    fun block hblock t k x hx => ?_, fun block hblock k d hd x hx => ?_⟩
  · obtain ⟨k, d, hk, hd, hchunk, hsize, -⟩ := inv.live_spans sound hblock
    exact ⟨k, d, mem_pagesOf.mpr hd, hk, hchunk, hsize⟩
  · exact inv.live_disjoint sound hlive
  · obtain ⟨k, d, -, hd, -, -, hlo, hhi⟩ := inv.live_spans sound hblock
    have holds : FixedHolds Holds s.heap.back s.heap.mem s.heap.tree _ := inv.slab.holds
    have hown : b ∈ s.heap.back.own := List.mem_append_right _ hb
    have hrun : (configs smallSizeClass k).run (s.heap.desc d).data ∈
        runs (configs smallSizeClass) s.heap.desc g := ⟨k, d, hd, rfl⟩
    have hapart : (s.heap.desc d).data + (configs smallSizeClass k).pgNum * PG_SIZE ≤ b.ptr ∨
        b.ptr + b.num * PG_SIZE ≤ (s.heap.desc d).data :=
      bytes_apart (inv.slab.placed sound.law hd) (law.placed holds.inner (.inr hown))
        fun p hp hp' => holds.own_off law hown hp' ⟨_, hrun, hp⟩
    have hhi : block.ptr + block.layout.size ≤
      (s.heap.desc d).data + PAGE_SIZE * (configs smallSizeClass k).pgNum := hhi
    simp only [PG_SIZE, PAGE_SIZE] at hapart hhi ⊢
    omega
  · obtain ⟨j, hj, -, -, hlive⟩ := inv.live_chunk sound hblock
    have hshare := ThreadCacheUnit.mem_share_of_node (s.caches t k) hx
    have hout := inv.out_of_share hshare
    obtain ⟨d, hd⟩ := inv.slab.out.mp hout
    refine fixed.chunk_off law hblock hd.inUse.mapped hd.chunk ?_
    rintro rfl
    obtain rfl := inv.slab.class_of_out sound.law hlive hout
    exact inv.live_apart (Inv.mem_liveChunks hblock hj) hshare
  · have hd := mem_pagesOf.mp hd
    have hchunk := freeOf_subset inv.slab hd hx
    refine fixed.chunk_off law hblock hd hchunk ?_
    rintro rfl
    obtain ⟨j, -, -, -, hlive⟩ := inv.live_chunk sound hblock
    obtain ⟨d', hd'⟩ := inv.slab.out.mp hlive
    obtain rfl := inv.slab.page_unique sound.law hd hd'.inUse.mapped hchunk hd'.chunk
    obtain rfl := inv.slab.class_unique hd hd'.inUse.mapped
    exact (isOut_iff_not_free inv.slab hd hchunk).mp hd' hx

/-- The sizes of layouts that are rounded up to a power of two or large. -/
def RoundedRequest (size : Nat) : Prop := size < 2 ^ 63 ∧ PowerOrLarge size

instance : DecidablePred PowerOrLarge := fun _ => inferInstanceAs (Decidable (_ ∨ _))

instance : DecidablePred RoundedRequest := fun _ => inferInstanceAs (Decidable (_ ∧ _))

omit [Fintype ι] in
/-- The cache takes no large request. -/
theorem FixedStep.served {m : FixedMove ι} (step : FixedStep B RoomLeft RoundedRequest s m s') :
    FixedStep B RoomLeft ServedRequest s m s' := by
  cases m with
  | small t m =>
      obtain ⟨enabled, hexec⟩ := step
      refine ⟨?_, hexec⟩
      cases m with
      | allocate layout =>
          obtain ⟨hpc, hlt, hrounded⟩ := enabled
          have hsmall : SmallSizeClass.finalSize layout.size ≤ SmallSizeClass.MAX_SIZE := by
            by_contra hlarge
            have hclass : smallSizeClass.getSizeClass layout.size = .large layout.size :=
              if_neg hlarge
            have hnone : s.exec (fixedBuild B RoomLeft) t (.allocate layout) = none := by
              simp only [State.exec, State.allocate, fixedBuild, hclass]
            cases hnone.symm.trans hexec
          exact ⟨hpc, hlt, hsmall, hrounded.resolve_right hsmall.not_gt⟩
      | refill _ => exact enabled
      | deallocate _ => exact enabled
      | store _ _ _ => exact enabled
      | exit => exact enabled
      | flush => exact enabled
      | giveBack => exact enabled
  | allocateLarge _ => exact step
  | deallocateLarge _ => exact step

/-- Classes fit exactly the requests that are rounded up to a power of two or large; and when
all requests are of this kind and `PG_BUMP` has room for its descriptors, no live block is
shorter than its request, and the bytes of its request are no one else's. -/
theorem blocks_roomy {mem : Mem} {back : FixedBack σ} (law : Lawful B Holds)
    (holds : FixedHolds Holds back mem TreeNode.zeroed ∅) (descs : FixedDescs [] back) :
    (∀ size < 2 ^ 63, ClassFits size ↔ PowerOrLarge size) ∧
      ∀ (tr : List (FixedMove ι)) (s : State ι (FixedBack σ)),
        Run (FixedStep B RoomLeft RoundedRequest)
          (State.new smallSizeClass (Heap.new mem back)) tr s →
        ∃ rings nodes free, Conserved smallSizeClass s rings nodes free ∧
          Roomy s rings nodes free := by
  refine ⟨fun size => classFits_iff, fun tr s run => ?_⟩
  have start : FixedInv B Holds
      (State.new smallSizeClass (Heap.new mem back) : State ι (FixedBack σ)) Ghost.new
      (fun _ _ => []) :=
    ⟨inv_new rfl rfl PageBumpAlloc.ok_new holds, descs⟩
  obtain ⟨g, nodes, fixed⟩ := fixed_run law start (run.mono fun u m v => FixedStep.served)
  exact ⟨_, nodes, _, fixed.inv.conserved (fixedBuild_sound law).law, fixed.roomy law⟩

/-- `PG_BUMP` begins with room for one descriptor, on a page above the heap. -/
def smallHeap : FixedBack (Nat × Nat) :=
  ⟨(0x1000000, 0x2000000), ⟨0x2000000, 0x2000028⟩, [⟨0x2000000, 1⟩], []⟩

theorem smallHeap_holds :
    FixedHolds Carved smallHeap (fun _ => 0) TreeNode.zeroed ∅ ∧ FixedDescs [] smallHeap := by
  have hown : smallHeap.own = {⟨0x2000000, 1⟩} := by
    ext b
    simp [FixedBack.own, smallHeap]
  refine ⟨⟨?_, by decide, fun b _ => Set.notMem_empty b, fun _ _ _ _ => rfl⟩, ⟨fun _ => ?_, ?_, ?_⟩⟩
  · rw [hown]
    refine ⟨by decide, by decide, fun b hb => ?_, fun b hb c hc hbc => ?_, fun _ _ => rfl⟩
    · obtain rfl : b = ⟨0x2000000, 1⟩ := by simpa using hb
      exact ⟨⟨by decide, by decide, by decide, by decide⟩, by decide⟩
    · obtain rfl : b = ⟨0x2000000, 1⟩ := by simpa using hb
      obtain rfl : c = ⟨0x2000000, 1⟩ := by simpa using hc
      exact absurd rfl hbc
  · exact ⟨⟨0x2000000, 1⟩, List.mem_singleton_self _, by decide⟩
  · exact fun d hd => absurd hd List.not_mem_nil
  · exact fun d hd => absurd hd List.not_mem_nil

/-- Two threads allocate blocks of three classes, and a large one. -/
def powers : List (FixedMove Bool) :=
  [.small false (.allocate ⟨30, 8⟩), .small false (.refill 0), .allocateLarge 3,
    .small true (.allocate ⟨1020, 16⟩), .small true (.refill 0),
    .small true (.store ⟨0x1ffa000, ⟨1020, 16⟩⟩ 1000 7), .small false (.allocate ⟨32, 1⟩),
    .small true (.deallocate ⟨0x1fff000, ⟨30, 8⟩⟩), .deallocateLarge ⟨0x1ffc000, 3⟩,
    .small true (.allocate ⟨8, 8⟩), .small true (.refill 0), .small true (.allocate ⟨29, 4⟩)]

theorem blocks_roomy_powers :
    let s₀ : State Bool (FixedBack (Nat × Nat)) :=
      State.new smallSizeClass (Heap.new (fun _ => 0) smallHeap)
    let s := Path.last s₀ (play (State.fixedMove carving RoomLeft RoundedRequest) s₀ powers)
    ∃ rings nodes free, Conserved smallSizeClass s rings nodes free ∧ Roomy s rings nodes free := by
  intro s₀
  exact (blocks_roomy carving_lawful smallHeap_holds.1 smallHeap_holds.2).2 _ _
    (play_path (fun h => State.fixedMove_step h) s₀ powers).run

/-- A request of `24` bytes gets a chunk of eight, so that the next block begins eight bytes
further on, and a request of no bytes gets a class that does not exist. -/
theorem blocks_overlap :
    ¬ClassFits 24 ∧ ¬ClassFits 0 ∧
      let s₀ : State Unit (FixedBack (Nat × Nat)) :=
        State.new smallSizeClass (Heap.new (fun _ => 0) smallHeap)
      let s := Path.last s₀ (play (State.fixedMove carving RoomLeft (· < 2 ^ 63)) s₀
        [.small () (.allocate ⟨24, 8⟩), .small () (.refill 0), .small () (.allocate ⟨24, 8⟩)])
      s.live = {⟨0x1fff008, ⟨24, 8⟩⟩, ⟨0x1fff000, ⟨24, 8⟩⟩} := by
  refine ⟨fun fits => ?_, fun fits => ?_, by decide +kernel⟩
  · exact absurd ((classFits_iff (by decide)).mp fits) (by decide)
  · exact absurd ((classFits_iff (by decide)).mp fits) (by decide)

end UniAlloc.Cache
