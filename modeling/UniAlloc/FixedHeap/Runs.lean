import UniAlloc.FixedHeap.Extension

/-!
# The invariant in every run

A request must fit, a block at the end of the heap must not be freed while the word behind the
page table looks like a tag, the slab allocators need a heap that begins at a page, and an
extension must find a clean block for the new page table. Each of these is a condition on the
state before the step.
-/

namespace UniAlloc.FixedHeap

open FreeList (PG_SIZE BumpAlloc)
open MetaBump (Sizes fixedSizes)
open Slab (PAGE_SIZE PageBumpAlloc)

/-- The conditions under which a step leaves the heap in order. -/
def Sound (s : State) : Move → Prop
  | .alloc size => s.heap.Fits size
  | .free b _ => (b.span s.base).first + b.num = s.heap.count →
      0 ≤ s.heap.array.entry s.heap.mem s.heap.count
  -- the mask of `align12k` stays inside the page
  | .insert .. | .remove .. | .lookup _ => s.base % PAGE_SIZE = 0
  | .store .. => True
  | .extend pgBump size => s.heap.bump.checkPoint + size < 2 ^ 48 ∧ s.Clean size PAGE_SIZE ∧
      (s.Continues pgBump ∨ s.table ∈ s.tables)

/-- A freed block does not end where the heap ends. -/
def InRange (s : State) : Move → Prop
  | .free b _ => (b.span s.base).first + b.num < s.heap.count
  | _ => True

/-- What is freed is not longer than the runs of the lists. -/
def Listed (s : State) : Move → Prop
  | .free b _ => b.num ≤ BACKEND_MAX_PAGE
  | .extend pgBump _ => s.Continues pgBump ∨ s.table.num ≤ BACKEND_MAX_PAGE
  | _ => True

def SoundStep (s : State) (m : Move) (t : State) : Prop := Step s m t ∧ Sound s m

variable {sz : Sizes} {s t : State} {m : Move} {L : Nat → List Nat} {lost : Multiset Nat}
  {first cur : Nat}

/-- The metadata take whole pages, at least one, and end with more than the page table. -/
theorem metaEnd_spec (sz : Sizes) (start finish : Nat) :
    ∃ pages, MetaBump.BumpAlloc.metaEnd sz start finish PAGE_SIZE = start + pages * PAGE_SIZE ∧
      MetaBump.BumpAlloc.totalMetadata sz (MetaBump.BumpAlloc.pageCount start finish PAGE_SIZE) ≤
        pages * PAGE_SIZE ∧
      8 * ((finish - start) / PAGE_SIZE) <
        MetaBump.BumpAlloc.totalMetadata sz
          (MetaBump.BumpAlloc.pageCount start finish PAGE_SIZE) := by
  have hpos := sz.pos
  have hroom := MetaBump.le_metaEnd sz start finish (by decide : 0 < PAGE_SIZE)
  rw [MetaBump.BumpAlloc.metaEnd, Nat.add_sub_cancel_left, Nat.mul_comm] at hroom
  refine ⟨_, congrArg (start + ·) (Nat.mul_comm _ _), hroom, ?_⟩
  rw [MetaBump.BumpAlloc.totalMetadata, MetaBump.BumpAlloc.pageCount, Nat.mul_add]
  omega

/-- The metadata in front of the pages, with the page table at its start. -/
theorem inv_start (h : PlacedStart sz s) : ∃ first, Inv s (fun _ => []) 0 first first := by
  obtain ⟨⟨hle, -, hrun⟩, hplaced⟩ := h
  rename_i mem start finish h
  rw [Heap.initWithRange, Option.bind_eq_bind, Option.bind_eq_some_iff] at hrun
  obtain ⟨metaBump, hmeta, hrun⟩ := hrun
  cases hrun
  obtain ⟨hstart, hfinish, hend, hentry⟩ := hplaced
  have hstart : 0 < start := hstart
  have hfinish : finish < 2 ^ 48 := hfinish
  have hbump := MetaBump.initWithRange_spec (by decide) (hend.trans (by decide)) hmeta
  obtain ⟨pages, hpages, hroom, hnodes⟩ := metaEnd_spec sz start finish
  have hcurrent : metaBump.current = MetaBump.BumpAlloc.metaEnd sz start finish PAGE_SIZE -
      MetaBump.BumpAlloc.totalMetadata sz
        (MetaBump.BumpAlloc.pageCount start finish PAGE_SIZE) := by rw [hbump]
  generalize MetaBump.BumpAlloc.totalMetadata sz
    (MetaBump.BumpAlloc.pageCount start finish PAGE_SIZE) = total at *
  simp only [hpages] at hcurrent hend ⊢
  have hfree : freePages (fun _ => []) = 0 := by simp [freePages, freeSpans, listSpans]
  have hcount : 8 * ((finish - start) / PAGE_SIZE) ≤ total := hnodes.le
  have hpos : 0 < pages := by
    simp only [PAGE_SIZE] at hroom
    omega
  refine ⟨pages, ⟨⟨hstart, ?_, ?_⟩, fun idx _ => ⟨rfl, trivial⟩,
    ⟨fun idx _ i hi => absurd hi List.not_mem_nil, fun p hp hneg => ?_⟩, ?_, ?_, ?_⟩, hle, rfl, rfl,
    hpos, le_rfl, fun h => absurd h (Nat.lt_irrefl _), ?_, ?_, ?_, fun p hp _ x hx h => ?_, hend⟩
  · simp only [ArrayNode.initWithRange, Heap.count, PageBump.initWithRange, PAGE_SIZE]
    omega
  · simp only [ArrayNode.initWithRange]
    omega
  · exact absurd hneg (hentry p hp).not_gt
  · rw [hfree]
    exact Multiset.nodup_zero
  · rw [hfree]
    exact fun p hp => absurd hp (Multiset.notMem_zero p)
  · rw [hfree]
    exact fun p hp => absurd hp (Multiset.notMem_zero p)
  · rw [hfree, Multiset.Ico_self]
    rfl
  · exact fun b hb => absurd hb (Multiset.notMem_zero b)
  · exact fun b hb => absurd hb (Multiset.notMem_zero b)
  · have hx := hx.1
    have hlt := h.2
    have hmul : pages * PAGE_SIZE ≤ p * PAGE_SIZE := Nat.mul_le_mul_right _ hp
    simp only [ArrayNode.pageAddr, ArrayNode.initWithRange, Heap.count, PageBump.initWithRange]
      at hx hlt
    omega

theorem Inv.stepAlloc {size p : Nat} {h : Heap} (inv : Inv s L lost first cur) (hpos : 0 < size)
    (hlt : size < 2 ^ 63) (hfits : s.heap.Fits size)
    (hcall : s.heap.alloc size = some (h, .ok p)) :
    ∃ L' cur', Inv { s with heap := h, live := ⟨p, originSize size + 1⟩ ::ₘ s.live } L' lost first
        cur' ∧ s.heap.count = h.count ∧ Logged s.heap.count s.heap h := by
  obtain ⟨h', L', i, hcall', taken⟩ | ⟨-, ⟨hroom, hcall'⟩ | ⟨-, hcall'⟩⟩ :=
    inv.alloc_cases hpos hlt hfits
  · cases hcall.symm.trans hcall'
    exact ⟨L', cur, inv.take taken (Nat.succ_pos _),
      (Heap.count_congr taken.changed.array taken.changed.bump).symm, taken.logged⟩
  · cases hcall.symm.trans hcall'
    exact ⟨L, _, inv.bump (Nat.succ_pos _) hroom, rfl, .refl _ _⟩
  · cases hcall.symm.trans hcall'

theorem Inv.stepExhausted {size : Nat} {h : Heap} {e : PageBump.AllocError}
    (inv : Inv s L lost first cur) (hpos : 0 < size) (hlt : size < 2 ^ 63)
    (hfits : s.heap.Fits size) (hcall : s.heap.alloc size = some (h, .error e)) : h = s.heap := by
  obtain ⟨h', L', i, hcall', taken⟩ | ⟨-, ⟨hroom, hcall'⟩ | ⟨-, hcall'⟩⟩ :=
    inv.alloc_cases hpos hlt hfits
  · cases hcall.symm.trans hcall'
  · cases hcall.symm.trans hcall'
  · cases hcall.symm.trans hcall'
    rfl

/-- Every step that meets its condition keeps the invariant. -/
theorem Inv.step (inv : Inv s L lost first cur) (hstep : SoundStep s m t) :
    ∃ L' lost' cur', Inv t L' lost' first cur' ∧ s.heap.count ≤ t.heap.count ∧
      (InRange s m → Logged t.heap.count s.heap t.heap) ∧ (Listed s m → lost' = lost) := by
  obtain ⟨hstep, hsound⟩ := hstep
  cases hstep with
  | alloc hpos hlt hcall =>
      obtain ⟨L', cur', inv', hcount, logged⟩ := inv.stepAlloc hpos hlt hsound hcall
      exact ⟨L', lost, cur', inv', hcount.le, fun _ => hcount ▸ logged, fun _ => rfl⟩
  | exhausted hpos hlt hcall =>
      obtain rfl := inv.stepExhausted hpos hlt hsound hcall
      exact ⟨L, lost, cur, inv, le_rfl, fun _ => .refl _ _, fun _ => rfl⟩
  | free hb hsize hcall =>
      obtain ⟨h', hcall', hcount, logged, -, inv'⟩ := inv.free hb hsize hsound
      cases hcall.symm.trans hcall'
      refine ⟨_, _, cur, inv', hcount.ge, fun hin => ?_, fun hlisted => if_pos hlisted⟩
      rw [hcount, ← Nat.max_eq_left (Nat.succ_le_of_lt hin)]
      exact logged
  | insert hb hk hnonneg hv hcall =>
      obtain ⟨h', hcall', hcount, logged, inv'⟩ := inv.insert hsound hb hk hv hnonneg
      cases hcall.symm.trans hcall'
      exact ⟨L, lost, cur, inv', hcount.ge, fun _ => hcount ▸ logged, fun _ => rfl⟩
  | remove hb hk hcall =>
      obtain ⟨h', hcall', hcount, logged, inv'⟩ := inv.insert hsound hb hk isI64_zero le_rfl
      cases hcall.symm.trans hcall'
      exact ⟨L, lost, cur, inv', hcount.ge, fun _ => hcount ▸ logged, fun _ => rfl⟩
  | lookup hb hlo hhi =>
      obtain ⟨logged, inv'⟩ := inv.lookup hsound hb hlo hhi
      exact ⟨L, lost, cur, inv', le_rfl, fun _ => logged, fun _ => rfl⟩
  | store hwrite =>
      exact ⟨L, lost, cur, inv.store hwrite, le_rfl, fun _ => .refl _ _, fun _ => rfl⟩
  | extend hcall =>
      obtain ⟨bound, clean, hold⟩ := hsound
      obtain ⟨L', lost', cur', inv', logged, hle, hlost⟩ := inv.extend bound clean hold hcall
      exact ⟨L', lost', cur', inv', hle, fun _ => logged, hlost⟩

/-- The heap of so many pages that begins at 64 KiB. Its first page holds the metadata. -/
def fresh (mem : Mem) (pages : Nat) : State where
  heap := ⟨mem, ⟨65536, 68672 - pages * 48⟩, fun _ => none, ⟨65536 + pages * 4096, 69632⟩, []⟩
  metaEnd := 69632
  live := 0
  tables := 0

/-- The heap once `n` pages have been allocated. -/
def freshUsed (mem : Mem) (pages n : Nat) : State where
  heap := ⟨mem, ⟨65536, 68672 - pages * 48⟩, fun _ => none,
    ⟨65536 + pages * 4096, 69632 + n * 4096⟩, []⟩
  metaEnd := 69632
  live := {⟨69632, n⟩}
  tables := 0

section Fresh

variable {mem : Mem} {pages n size : Nat}

theorem fresh_starts (hpages : pages ≤ 65)
    (hmeta : MetaBump.BumpAlloc.initWithRange fixedSizes 65536 (65536 + pages * 4096) PAGE_SIZE =
      some ⟨65536, 68672 - pages * 48⟩)
    (hend : MetaBump.BumpAlloc.metaEnd fixedSizes 65536 (65536 + pages * 4096) PAGE_SIZE = 69632)
    (hentry : ∀ p < pages, 0 ≤ readI64 mem (68672 - pages * 48 + 8 * p)) :
    PlacedStart fixedSizes (fresh mem pages) := by
  have hrun : Heap.initWithRange fixedSizes mem 65536 (65536 + pages * 4096) PAGE_SIZE =
      some (fresh mem pages).heap := by
    rw [Heap.initWithRange, hmeta, hend]
    rfl
  have hcount : (fresh mem pages).heap.count = pages := by
    simp only [fresh, Heap.count, PAGE_SIZE]
    omega
  have hstart := Starts.init (Nat.le_add_right _ _) (by omega) hrun
  rw [hend] at hstart
  refine ⟨hstart, Nat.zero_lt_succ _, ?_, ?_, fun p hp => hentry p (hcount ▸ hp)⟩
  · simp only [fresh]
    omega
  · simp only [fresh]
    omega

theorem fresh_inv (h : PlacedStart fixedSizes (fresh mem pages)) :
    Inv (fresh mem pages) (fun _ => []) 0 1 1 := by
  obtain ⟨first, inv⟩ := inv_start h
  have hfirst := inv.metaEnd
  simp only [fresh, ArrayNode.pageAddr, PAGE_SIZE] at hfirst
  obtain rfl : first = 1 := by omega
  exact inv

/-- The first pages that are allocated follow the metadata. -/
theorem fresh_alloc (h : PlacedStart fixedSizes (fresh mem pages)) (hsize : 0 < size)
    (hlt : size < 2 ^ 63) (hn : originSize size + 1 = n) (hroom : 1 + n ≤ pages) :
    SoundStep (fresh mem pages) (.alloc size) (freshUsed mem pages n) ∧
      Inv (freshUsed mem pages n) (fun _ => []) 0 1 (1 + n) := by
  have inv := fresh_inv h
  have hpages := Heap.allocSize_eq hsize hlt
  have hend : (fresh mem pages).heap.array.pageAddr (1 + n) = 69632 + n * 4096 := by
    simp only [fresh, ArrayNode.pageAddr, PAGE_SIZE]
    omega
  have hfirst : (fresh mem pages).heap.array.pageAddr 1 = 69632 := rfl
  have hcheck : (fresh mem pages).heap.bump.checkPoint = 65536 + pages * 4096 := rfl
  have hfits : (fresh mem pages).heap.Fits size := by
    refine .inr ?_
    rw [hpages, hn, hcheck, PAGE_SIZE]
    omega
  have hle : 69632 + n * 4096 ≤ 65536 + pages * 4096 := by omega
  have hbump := inv.bump (n := n) (by omega) (hend.trans_le hle)
  rw [hend, hfirst] at hbump
  obtain ⟨h', L', i, -, taken⟩ | ⟨-, ⟨-, hcall⟩ | ⟨hlarge, -⟩⟩ := inv.alloc_cases hsize hlt hfits
  · obtain ⟨idx, -, -, hi⟩ := taken.source
    exact absurd hi List.not_mem_nil
  · rw [hn, hend, hfirst] at hcall
    have hstep := Step.alloc hsize hlt hcall
    rw [hn] at hstep
    exact ⟨⟨hstep, hfits⟩, hbump⟩
  · rw [hn, hend, hcheck] at hlarge
    omega

end Fresh

end UniAlloc.FixedHeap
