import UniAlloc.Cache.FreeListBuild
import UniAlloc.Cache.Refinement

/-!
# The default build as a store

The page backend of the default build works in whole pages, so that large blocks can be given
to it as they are. From the thread caches down to the regions of `mmap`, the allocator is a
store of blocks.
-/

namespace UniAlloc

namespace FreeList

open Cache (numPages)
open Slab (PAGE_SIZE)

theorem originSize_round (size : Nat) :
    originSize (PAGE_SIZE * numPages size) = originSize size := by
  simp only [originSize, numPages, PG_SIZE, PAGE_SIZE]
  omega

theorem allocSize_round (size : Nat) :
    BumpAlloc.allocSize (PAGE_SIZE * numPages size) = BumpAlloc.allocSize size := by
  simp only [BumpAlloc.allocSize, numPages, PG_SIZE, PAGE_SIZE]
  omega

theorem exhausted_round (bump : BumpAlloc) (size : Nat) :
    bump.Exhausted (PAGE_SIZE * numPages size) ↔ bump.Exhausted size := by
  rw [BumpAlloc.Exhausted, BumpAlloc.Exhausted, allocSize_round]

theorem bump_alloc_round (bump : BumpAlloc) (size mapped : Nat) :
    bump.alloc (PAGE_SIZE * numPages size) mapped = bump.alloc size mapped := by
  simp only [BumpAlloc.alloc, exhausted_round, allocSize_round]

/-- The call for the same pages. -/
def Pc.round : Pc → Pc
  | .idle => .idle
  | .allocScan size idx => .allocScan (PAGE_SIZE * numPages size) idx
  | .allocSplit size parentIdx parent => .allocSplit (PAGE_SIZE * numPages size) parentIdx parent
  | .allocBump size => .allocBump (PAGE_SIZE * numPages size)
  | .freePrev ptr size => .freePrev ptr (PAGE_SIZE * numPages size)
  | .freeMergePrev ptr size pflag => .freeMergePrev ptr (PAGE_SIZE * numPages size) pflag
  | .freeNext ptr size finalPtr finalIdx =>
      .freeNext ptr (PAGE_SIZE * numPages size) finalPtr finalIdx
  | .freeMergeNext ptr size finalPtr finalIdx nflag =>
      .freeMergeNext ptr (PAGE_SIZE * numPages size) finalPtr finalIdx nflag
  | .freeInsert finalPtr finalIdx => .freeInsert finalPtr finalIdx

/-- The event for the same pages. -/
def Event.round : Event → Event
  | .callAlloc size => .callAlloc (PAGE_SIZE * numPages size)
  | .callFree ptr size => .callFree ptr (PAGE_SIZE * numPages size)
  | .taken ptr size => .taken ptr (PAGE_SIZE * numPages size)
  | .carved ptr size => .carved ptr (PAGE_SIZE * numPages size)
  | .tau => .tau
  | .failed => .failed
  | .freed => .freed
  | .unmapped ptr num => .unmapped ptr num

theorem Pc.round_eq_idle {pc : Pc} : pc.round = .idle ↔ pc = .idle := by
  cases pc <;> simp [Pc.round]

theorem Pc.fuel_round (pc : Pc) : pc.round.fuel = pc.fuel := by
  cases pc <;> rfl

theorem maps_round (h : Heap) (pc : Pc) : Maps h pc.round ↔ Maps h pc := by
  cases pc with
  | allocBump size => exact exhausted_round h.bump size
  | _ => exact Iff.rfl

/-- An action depends on the pages of the request only. -/
theorem act_round (h : Heap) (mapped : Nat) (pc : Pc) :
    act h mapped pc.round = (act h mapped pc).map fun x => (x.1, x.2.1.round, x.2.2.round) := by
  cases pc with
  | idle => rfl
  | allocScan size idx =>
      simp only [act, Pc.round, originSize_round, Option.bind_eq_bind, Option.map_bind]
      refine Option.bind_congr fun x _ => ?_
      obtain ⟨h, ans⟩ := x
      cases ans with
      | some ptr =>
          simp only [Function.comp_apply]
          split <;> rfl
      | none =>
          simp only [Function.comp_apply]
          split <;> rfl
  | allocSplit size parentIdx parent =>
      simp only [act, Pc.round, originSize_round, Option.bind_eq_bind, Option.map_bind]
      rfl
  | allocBump size =>
      simp only [act, Pc.round, bump_alloc_round]
      split <;> rfl
  | freePrev ptr size =>
      simp only [act, Pc.round, originSize_round, Option.bind_eq_bind]
      split
      · rfl
      · rw [Option.map_bind]
        refine Option.bind_congr fun v _ => ?_
        simp only [Function.comp_apply]
        split <;> rfl
  | freeMergePrev ptr size pflag =>
      simp only [act, Pc.round, originSize_round, Option.bind_eq_bind]
      split
      · rfl
      · rw [Option.map_bind]
        refine Option.bind_congr fun x _ => ?_
        obtain ⟨h, prev⟩ := x
        cases prev <;> rfl
  | freeNext ptr size finalPtr finalIdx =>
      simp only [act, Pc.round, originSize_round, Option.bind_eq_bind, Option.map_bind]
      refine Option.bind_congr fun v _ => ?_
      simp only [Function.comp_apply]
      split <;> rfl
  | freeMergeNext ptr size finalPtr finalIdx nflag =>
      simp only [act, Pc.round, originSize_round, Option.bind_eq_bind, Option.map_bind]
      refine Option.bind_congr fun x _ => ?_
      obtain ⟨h, next⟩ := x
      cases next <;> rfl
  | freeInsert finalPtr finalIdx =>
      simp only [act, Pc.round, Option.bind_eq_bind]
      split
      · rw [Option.map_bind]
        rfl
      · rfl

/-- A call ends for the same pages in the same way. -/
theorem runCall_round (mapped : Option Nat) (n : Nat) (h : Heap) (pc : Pc) :
    runCall mapped n h pc.round = (runCall mapped n h pc).map fun x => (x.1, x.2.round) := by
  induction n generalizing h pc with
  | zero => rfl
  | succ n ih =>
      simp only [runCall, maps_round, act_round, Option.bind_eq_bind]
      split
      · rfl
      · rw [Option.map_bind, Option.bind_map]
        refine Option.bind_congr fun x _ => ?_
        obtain ⟨h, c, e⟩ := x
        simp only [Function.comp_apply, Pc.round_eq_idle]
        split
        · rfl
        · exact ih h c

theorem allocEntry_round (size : Nat) :
    allocEntry (PAGE_SIZE * numPages size) = (allocEntry size).round := by
  rw [allocEntry, allocEntry, originSize_round]
  split <;> rfl

/-- The page backend works in whole pages. -/
theorem backend_rounds : Cache.Rounds backend := by
  intro back mem tree size hsize
  have hfree : ∀ ptr, runCall none (Pc.freePrev ptr (PAGE_SIZE * numPages size)).fuel
      (back.heap mem tree) (.freePrev ptr (PAGE_SIZE * numPages size)) =
      (runCall none (Pc.freePrev ptr size).fuel (back.heap mem tree) (.freePrev ptr size)).map
        fun x => (x.1, x.2.round) := fun ptr => runCall_round none _ _ (.freePrev ptr size)
  refine ⟨?_, fun ptr => ?_⟩
  · have hmax : BACKEND_MAX_PAGE * PG_SIZE < PAGE_SIZE * numPages size ↔
        BACKEND_MAX_PAGE * PG_SIZE < size := by
      simp only [BACKEND_MAX_PAGE, PG_SIZE, PAGE_SIZE, numPages]
      omega
    have hrest : back.rest (PAGE_SIZE * numPages size) = back.rest size := by
      simp only [Backing.rest, exhausted_round]
    simp only [backend, hmax, hrest, allocEntry_round, runCall_round, Pc.fuel_round]
    split
    · rfl
    · cases runCall back.regions.head? (allocEntry size).fuel (back.heap mem tree)
        (allocEntry size) with
      | none => rfl
      | some x =>
          obtain ⟨h, e⟩ := x
          cases e <;> rfl
  · simp only [backend, hfree, Option.bind_eq_bind, Option.bind_map]
    rfl

/-- The pages that are out have been carved from the regions. -/
theorem Kept.within {all : List Nat} {back : Backing} {mem : Mem} {tree : Radix.RadixTree}
    {held : Set Block} {live : Multiset Block} {carved : Multiset Nat} {L : Nat → List Nat}
    (kept : Kept all back mem tree held live carved L) {p : Nat} (hp : Slab.HeldPage held p) :
    Within all p := by
  have htotal : (blocks live L fun _ : Unit => Pc.idle).bind Block.pages = carved :=
    kept.inv.total
  refine kept.ahead.within p (htotal ▸ ?_)
  rw [blocks, Multiset.add_bind, Multiset.add_bind]
  exact Multiset.mem_add.mpr (.inl (Multiset.mem_add.mpr (.inl (kept.mem_livePages.mpr hp))))

end FreeList

namespace Cache

open FreeList Radix Slab Transition

variable {ι : Type} [DecidableEq ι] [Fintype ι] {r r' : RustState ι Backing} {m : RustMove ι}
  {regions : List Nat}

/-- The lists of the backend can take back what the request takes. -/
def RustMove.Bounded : RustMove ι → Prop
  | .alloc _ layout => numPages layout.size ≤ BACKEND_MAX_PAGE
  | .realloc _ _ newSize _ => numPages newSize ≤ BACKEND_MAX_PAGE
  | .small _ _ | .dealloc _ _ | .store _ _ _ _ => True

/-- `mmap` will not fail in the next move. -/
def RustState.Mappable (r : RustState ι Backing) : Prop := r.cache.heap.back.inner.regions ≠ []

omit [DecidableEq ι] in
/-- The blocks lie in the regions. -/
theorem RustOk.within (ok : RustOk FreeList.backend (Keeps regions) r) {block : Live}
    (hblock : block ∈ r.blocks) {i : Nat} (hi : i < block.layout.size) :
    Within regions ((block.ptr + i) / PG_SIZE) := by
  have law := backend_lawful regions
  obtain ⟨⟨g, nodes, rinv⟩, -⟩ := ok
  obtain ⟨live, carved, L, kept⟩ := rinv.inv.slab.holds.inner
  have hbyte : block.Byte (block.ptr + i) := ⟨Nat.le_add_right _ _, Nat.add_lt_add_left hi _⟩
  refine kept.within ?_
  obtain hsmall | hlarge := Multiset.mem_add.mp hblock
  · obtain ⟨run, hrun, hp⟩ :=
      (rinv.inv.live_byte (defaultBuild_sound (fixedBackend_lawful law)) hsmall hbyte).1
    exact ⟨run, .inl hrun, hp⟩
  · refine ⟨block.run, .inr (rinv.run_own hlarge), ?_⟩
    exact Live.byte_page (rinv.run_placed law hlarge) hbyte

theorem pgNum_bounds {idx : Nat} (hidx : IsClass tcSizeClass idx) :
    0 < (configs tcSizeClass idx).pgNum ∧ (configs tcSizeClass idx).pgNum ≤ BACKEND_MAX_PAGE := by
  have hnum := configs_pgNum tcSizeClass_sound hidx
  have hpos := tcSizeClass_sound.size_pos idx hidx.1 hidx.2
  have hle := tcSizeClass_sound.size_le idx hidx.1 hidx.2
  refine ⟨hnum ▸ Nat.pos_of_mul_pos_left (hpos.trans_le hle), ?_⟩
  exact hnum.trans_le (tcSizeClass_pages_le idx)

/-- The lists of the backend have runs of that length. -/
theorem pagesFor_bounds {size : Nat} (hsize : LayoutSize size)
    (h : numPages size ≤ BACKEND_MAX_PAGE) :
    0 < pagesFor size ∧ pagesFor size ≤ BACKEND_MAX_PAGE := by
  obtain hlarge | hsmall := Nat.lt_or_ge tcSizeClass.MAX_SIZE size
  · have hclass : tcSizeClass.getSizeClass size = .large size :=
      TcSizeClass.getSizeClass_large hlarge
    have hpos := hsize.1
    rw [pagesFor, hclass]
    refine ⟨?_, h⟩
    simp only [numPages, PAGE_SIZE]
    omega
  · obtain ⟨idx, rounds⟩ := tcSizeClass_rounds hsize.1 hsmall
    rw [pagesFor, rounds.class_eq]
    exact pgNum_bounds ⟨rounds.pos, rounds.lt⟩

/-- The backend has no run, because `mmap` has no region. -/
theorem spent_of_keeps {back : Backing} {mem : Mem} {tree : RadixTree} {held : Set Block}
    (keeps : Keeps regions back mem tree held) {num : Nat}
    (hnum : 0 < num ∧ num ≤ BACKEND_MAX_PAGE)
    (out : FreeList.backend.alloc back mem tree (PAGE_SIZE * num) = none) :
    back.Spent (PAGE_SIZE * num) := by
  obtain ⟨live, carved, L, kept⟩ := keeps
  exact kept.alloc_eq_none hnum.1 hnum.2 out

omit [DecidableEq ι] [Fintype ι] in
theorem supplied_of_mappable {size : Nat} (hsize : LayoutSize size)
    (h : numPages size ≤ BACKEND_MAX_PAGE) (mappable : r.Mappable) :
    Supplied FreeList.backend (Keeps regions) r size := fun _ _ keeps hnone =>
  mappable (spent_of_keeps keeps (pagesFor_bounds hsize h) hnone).2

omit [DecidableEq ι] [Fintype ι] in
/-- The backend has what a bounded move asks for. -/
theorem RustMove.supplied (bounded : m.Bounded) (mappable : r.Mappable)
    (enabled : r.Enabled FreeList.backend m) : m.Supplied FreeList.backend (Keeps regions) r := by
  cases m with
  | alloc t layout => exact supplied_of_mappable enabled.2.2 bounded mappable
  | realloc t block newSize mapped => exact supplied_of_mappable enabled.2.2.1 bounded mappable
  | _ => exact trivial

/-- A move panics only if `mmap` fails. -/
theorem RustOk.returns (ok : RustOk FreeList.backend (Keeps regions) r) (bounded : m.Bounded)
    (mappable : r.Mappable) (enabled : r.Enabled FreeList.backend m) :
    ∃ r', r.exec FreeList.backend m = some r' := by
  have law := backend_lawful regions
  have supplied : m.Supplied FreeList.backend (Keeps regions) r :=
    RustMove.supplied bounded mappable enabled
  obtain ⟨⟨g, nodes, rinv⟩, -⟩ := ok
  cases m with
  | small t m =>
      obtain ⟨cache, g', nodes', hexec, -⟩ | ⟨-, idx, layout, hpc, hout⟩ :=
        rinv.inv.exec (defaultBuild_sound (fixedBackend_lawful law)) enabled
      · have hcall : r.cache.exec (largeBuild FreeList.backend) t m = some cache := hexec
        rw [RustState.exec, hcall]
        exact ⟨_, rfl⟩
      · have hpcs := rinv.inv.pcs t
        rw [hpc] at hpcs
        obtain ⟨hclass, hrequest, -⟩ := hpcs
        obtain ⟨idx', rounds⟩ := tcSizeClass_rounds hrequest.1 hrequest.2
        obtain rfl := SizeClass.base.inj (hclass.symm.trans rounds.class_eq)
        have hnum := pgNum_bounds ⟨rounds.pos, rounds.lt⟩
        have hnone : FreeList.backend.alloc r.cache.heap.back.inner r.cache.heap.mem
            r.cache.heap.tree (PAGE_SIZE * (configs tcSizeClass idx).pgNum) = none :=
          Option.eq_none_iff_forall_ne_some.mpr fun x hx =>
            absurd (Option.bind_eq_none_iff.mp hout x hx) (Option.some_ne_none _)
        exact absurd (spent_of_keeps rinv.inv.slab.holds.inner hnum hnone).2 mappable
  | alloc t layout =>
      obtain ⟨-, hlarge, hsize⟩ := enabled
      obtain ⟨ptr, r₁, hcall, -⟩ | ⟨-, hout⟩ :=
        rinv.allocLarge law backend_rounds (t := t) hlarge hsize 0
      · rw [RustState.exec, hcall]
        exact ⟨_, rfl⟩
      · exact absurd supplied hout
  | dealloc t block =>
      obtain ⟨r₁, hcall, -⟩ := rinv.deallocLarge law backend_rounds (t := t) enabled.2
      exact ⟨r₁, hcall⟩
  | store t block offset v => exact ⟨_, rfl⟩
  | realloc t block newSize mapped =>
      obtain ⟨idle, hblock, hsize, fresh⟩ := enabled
      obtain ⟨q, r₁, _, _, hcall, -⟩ | ⟨-, hout⟩ :=
        rinv.realloc law backend_rounds idle hblock hsize fresh
      · rw [RustState.exec, hcall]
        exact ⟨_, rfl⟩
      · exact absurd supplied hout

instance : (m : RustMove ι) → Decidable m.Bounded
  | .alloc _ layout => inferInstanceAs (Decidable (numPages layout.size ≤ BACKEND_MAX_PAGE))
  | .realloc _ _ newSize _ => inferInstanceAs (Decidable (numPages newSize ≤ BACKEND_MAX_PAGE))
  | .small _ _ | .dealloc _ _ | .store _ _ _ _ => isTrue trivial

instance (r : RustState ι Backing) : Decidable r.Mappable := inferInstanceAs (Decidable (_ ≠ _))

end Cache

end UniAlloc
