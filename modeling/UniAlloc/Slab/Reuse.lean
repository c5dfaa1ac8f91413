import UniAlloc.Slab.System

/-!
# Which page a batch comes from

The chunks of a partially used page are to be handed out before an empty page or a
new run of pages is taken. `allocate_batch_v2` looks at the partial ring only for
the alignment `1`, although every chunk of the allocator has each alignment that
divides the stride and the page size.
-/

namespace UniAlloc.Slab

open FreeList Radix Transition

variable {σ : Type}

/-- An answer that comes from a partially used page, without a new run of pages and without
an empty page. -/
structure Reuses (s : State σ) (slab : SCAllocator) (heap : Heap σ)
    (ans : Nat × Nat × Option Nat) : Prop where
  page : ∃ d ∈ s.heap.created, 0 < (s.heap.desc d).counter ∧
    (s.heap.desc d).counter < asUsize s.slab.pgCount ∧
    ∀ x ∈ handed heap.mem ans, x ∈ (Config.of s.slab).chunks (s.heap.desc d).data
  back : heap.back = s.heap.back
  tree : heap.tree = s.heap.tree
  created : heap.created = s.heap.created
  uninit : slab.uninitStart = s.slab.uninitStart
  empty : slab.emptyStart = s.slab.emptyStart
  emptyCount : slab.emptyCount = s.slab.emptyCount

variable {B : PageBackend σ} {Holds : σ → Mem → RadixTree → Set Block → Prop} {s : State σ}

/-- From a partial page `allocate_batch_v2` writes nothing but descriptors and the starts of
two rings. -/
theorem allocateBatchV2_partial {self self' : SCAllocator} {h h' : Heap σ} {mapped : Nat}
    {ans : Nat × Nat × Option Nat} (hs : self.partialStart ≠ 0)
    (hcall : self.allocateBatchV2 B h 1 mapped = some (self', h', ans)) :
    ∃ desc s₁ s₂, h' = { h with desc } ∧
      self' = (self.setStart .partially s₁).setStart .full s₂ ∧
      ans = ((h.desc self.partialStart).allocateAll (asUsize self.pgCount)
        (asUsize self.pgAlign)).2 := by
  rw [SCAllocator.allocateBatchV2, if_pos ⟨hs, rfl⟩] at hcall
  obtain ⟨⟨self₁, h₁⟩, hremove, hcall⟩ := Option.bind_eq_some_iff.mp hcall
  obtain ⟨⟨self₂, h₂⟩, hinsert, hcall⟩ := Option.bind_eq_some_iff.mp hcall
  obtain ⟨r₁, -, hremove⟩ := Option.bind_eq_some_iff.mp hremove
  obtain ⟨r₂, -, hinsert⟩ := Option.bind_eq_some_iff.mp hinsert
  cases hremove
  cases hinsert
  cases hcall
  exact ⟨_, _, _, rfl, rfl, rfl⟩

namespace Represented

variable {c : Config} {g : Ghost Unit} {align mapped : Nat}

/-- With alignment `1` the first partial page hands out its free list. -/
theorem reuses (law : Lawful B Holds) (rep : Represented Holds c s g)
    (hs : s.slab.partialStart ≠ 0) :
    ∃ slab heap ans, s.slab.allocateBatchV2 B s.heap 1 mapped = some (slab, heap, ans) ∧
      Reuses s slab heap ans := by
  have hmem : s.slab.partialStart ∈ g.rings ((), .partially) := by
    have hstart := rep.inv.threads.start_mem (i := ((), .partially)) (by exact hs)
    exact hstart
  obtain ⟨-, busy, hne⟩ := rep.inv.page hmem
  have hcount := (rep.inv.configured ()).count
  have hsum := busy.sum
  have := List.length_pos_of_ne_nil hne
  obtain ⟨slab, heap, ptr, n, g', l, hcall, -⟩ := allocate_partial law rep.inv (k := ()) hs mapped
  obtain ⟨desc, s₁, s₂, rfl, rfl, hans⟩ := allocateBatchV2_partial hs hcall
  rw [ObjectPage.allocateAll, if_neg busy.pos.ne', hcount] at hans
  refine ⟨_, _, _, hcall, ?_, rfl, rfl, rfl, rfl, rfl, rfl⟩
  refine ⟨s.slab.partialStart, rep.inv.created.mpr ⟨_, hmem⟩, busy.pos, by omega, ?_⟩
  intro x hx
  have hlength : c.count - (s.heap.desc s.slab.partialStart).counter =
      (g.free s.slab.partialStart).length := by omega
  rw [hans, handed, hlength, busy.chain.follow_length] at hx
  rw [rep.config]
  exact busy.sub x hx

/-- With any other alignment all chunks of some other page leave. -/
theorem not_reuses (law : Lawful B Holds) (rep : Represented Holds c s g) (sized : c.Sized)
    (halign : align ≠ 1)
    (fresh : s.heap.pgBump.Exhausted → FreshDescs s.heap.created mapped)
    {slab : SCAllocator} {heap : Heap σ} {ans : Nat × Nat × Option Nat}
    (hcall : s.slab.allocateBatchV2 B s.heap align mapped = some (slab, heap, ans)) :
    ¬Reuses s slab heap ans := by
  intro reuses
  obtain ⟨d, hd, hpos, hlt, hsub⟩ := reuses.page
  obtain ⟨ptr, n, stride⟩ := ans
  obtain ⟨g', l, -, granted, hstride⟩ := rep.allocated law sized fresh hcall
  cases stride with
  | none => exact halign (hstride rfl)
  | some a =>
      obtain ⟨rfl, hl⟩ := granted.row a rfl
      rw [granted.handed_eq, rep.config] at hsub
      have hring : d ∈ g.rings ((), .partially) := by
        obtain ⟨⟨⟨⟩, kind⟩, hkind⟩ := rep.inv.created.mp hd
        rw [(rep.inv.configured ()).count] at hlt
        obtain rfl := (rep.kind_iff hkind).2.1.mpr ⟨hpos, hlt⟩
        exact hkind
      -- As many chunks leave as the page has, so all of them do, and one of them is out.
      have hsubperm := granted.nodup.subperm hsub
      have hperm := hsubperm.perm_of_length_le (by rw [hl, Config.length_chunks]; simp)
      obtain ⟨x, hx⟩ := InUse.exists_isOut rep.inv (.inr hring)
      apply granted.fresh x (hperm.mem_iff.mpr hx.chunk)
      exact rep.inv.out.mpr ⟨d, hx⟩

end Represented

/-- In every state that a run of calls reaches with a page on the partial ring, a batch comes
from a partial page if and only if it is asked for with alignment `1`. -/
theorem reused_iff {sizeClass numOsPages : Nat} {mem : Mem} {back : σ} {tr : List Event}
    {align mapped : Nat} (law : Lawful B Holds) (hsize : 8 ≤ sizeClass)
    (hle : sizeClass ≤ PAGE_SIZE * numOsPages)
    (start : Holds back mem TreeNode.zeroed ∅)
    (run : Run (Step B) (State.new sizeClass numOsPages mem back) tr s)
    (hs : s.slab.partialStart ≠ 0)
    (fresh : s.heap.pgBump.Exhausted → FreshDescs s.heap.created mapped) :
    (∃ slab heap ans, s.slab.allocateBatchV2 B s.heap align mapped = some (slab, heap, ans) ∧
      Reuses s slab heap ans) ↔ align = 1 := by
  have sized := sized_new hsize hle
  obtain ⟨g, rep⟩ :=
    represented_run law sized (represented_new sizeClass numOsPages start) run
  constructor
  · rintro ⟨slab, heap, ans, hcall, reuses⟩
    by_contra halign
    exact rep.not_reuses law sized halign fresh hcall reuses
  · rintro rfl
    exact rep.reuses law hs

/-- The start of `fourChunks`, after which two chunks of `1024` bytes are out and two are
free. -/
def twoBack : State (Nat × Nat) :=
  Path.last (State.new 1024 1 (fun _ => 0) (0x1000000, 0x2000000))
    (play (State.move carving) (State.new 1024 1 (fun _ => 0) (0x1000000, 0x2000000))
      (fourChunks.take 4))

theorem reused_iff_twoBack :
    (∃ slab heap ans, twoBack.slab.allocateBatchV2 carving twoBack.heap 8 0 =
      some (slab, heap, ans) ∧ Reuses twoBack slab heap ans) ↔ 8 = 1 :=
  reused_iff carving_lawful (by decide : 8 ≤ 1024) (by decide : 1024 ≤ PAGE_SIZE * 1)
    carved_region
    (play_path (fun h => State.move_step carving h) _ (fourChunks.take 4)).run
    (by decide +kernel) (by decide +kernel)

/-- Two chunks are free and each of them has the alignment `8`, but a new page is mapped. -/
theorem partial_not_reused :
    (∃ tr, Run (Step carving) (State.new 1024 1 (fun _ => 0) (0x1000000, 0x2000000)) tr twoBack) ∧
    twoBack.slab.partialStart ≠ 0 ∧ 8 ∣ asUsize twoBack.slab.pgAlign ∧ 8 ∣ PAGE_SIZE ∧
    ∃ slab heap ans, twoBack.slab.allocateBatchV2 carving twoBack.heap 8 0 =
      some (slab, heap, ans) ∧ heap.back ≠ twoBack.heap.back ∧ ¬Reuses twoBack slab heap ans := by
  have hcall : ∃ r ∈ twoBack.slab.allocateBatchV2 carving twoBack.heap 8 0,
      r.2.1.back ≠ twoBack.heap.back := by decide +kernel
  obtain ⟨⟨slab, heap, ans⟩, hcall, hback⟩ := hcall
  refine ⟨⟨_, (play_path (fun h => State.move_step carving h) _ (fourChunks.take 4)).run⟩,
    by decide +kernel, by decide +kernel, by decide, ?_⟩
  exact ⟨slab, heap, ans, hcall, hback, fun reuses => hback reuses.back⟩

end UniAlloc.Slab
