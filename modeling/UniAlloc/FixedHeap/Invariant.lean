import UniAlloc.FixedHeap.System

/-!
# The invariant of a fixed heap

The pages that `BUMP` has handed out are in use, on the lists, or lost: each of them once.
The page table lies outside of the pages on the lists, and of those that are still to be
handed out.
-/

namespace UniAlloc.FixedHeap

open FreeList (PG_SIZE BumpAlloc)
open Radix (pageKey)
open Slab (PAGE_SIZE PageBumpAlloc align12k)

/-- The pages from `first` to `cur` have been handed out. -/
structure Inv (s : State) (L : Nat → List Nat) (lost : Multiset Nat) (first cur : Nat) : Prop where
  rep : Represents s.heap s.heap.count L
  base_le : s.base ≤ s.heap.bump.checkPoint
  current : s.heap.bump.current = s.heap.array.pageAddr cur
  metaEnd : s.metaEnd = s.heap.array.pageAddr first
  pos : 0 < first
  le : first ≤ cur
  inside : first < cur → cur ≤ s.heap.count
  total : s.livePages + freePages L + lost = Multiset.Ico first cur
  blocks : ∀ b ∈ s.live + s.tables, b.ptr = s.heap.array.pageAddr (b.span s.base).first
  num : ∀ b ∈ s.live + s.tables, 0 < b.num
  off : ∀ p, first ≤ p → p ∉ pagesOf s.base s.tables →
    ∀ x, s.heap.array.InPage p x → ¬s.heap.array.InArray s.heap.count x
  metaEnd_lt : s.metaEnd < 2 ^ 63

variable {s : State} {L : Nat → List Nat} {lost : Multiset Nat} {first cur i n p : Nat} {h : Heap}
  {b : Block} {blocks : Multiset Block}

theorem span_pageAddr (array : ArrayNode) (i n : Nat) :
    (⟨array.pageAddr i, n⟩ : Block).span array.base = ⟨i, n⟩ := by
  simp [Block.span, ArrayNode.pageAddr, PAGE_SIZE]

theorem pagesOf_cons (base : Nat) (b : Block) (blocks : Multiset Block) :
    pagesOf base (b ::ₘ blocks) = (b.span base).pages + pagesOf base blocks :=
  Multiset.cons_bind _ _ _

theorem pagesOf_erase {base : Nat} (hb : b ∈ blocks) :
    pagesOf base blocks = (b.span base).pages + pagesOf base (blocks.erase b) := by
  rw [← pagesOf_cons, Multiset.cons_erase hb]

theorem mem_pagesOf {base : Nat} (hb : b ∈ blocks) (hp : p ∈ (b.span base).pages) :
    p ∈ pagesOf base blocks :=
  Multiset.mem_bind.mpr ⟨b, hb, hp⟩

namespace Heap

theorem count_mul_le (h : Heap) :
    h.count * PAGE_SIZE ≤ h.bump.checkPoint - h.array.base := Nat.div_mul_le_self _ _

theorem count_congr {h h' : Heap} (array : h'.array = h.array) (bump : h'.bump = h.bump) :
    h'.count = h.count := by rw [count, count, array, bump]

end Heap

namespace Inv

variable (inv : Inv s L lost first cur)

include inv

theorem checkPoint_lt : s.heap.bump.checkPoint < 2 ^ 63 := by
  have hbound := inv.rep.geometry.bound
  have hle := inv.base_le
  simp only [State.base, Heap.count, PAGE_SIZE] at hbound hle
  omega

theorem current_lt : s.heap.bump.current < 2 ^ 63 := by
  have hmeta := inv.metaEnd_lt
  rw [inv.metaEnd] at hmeta
  rw [inv.current]
  obtain heq | hlt := inv.le.eq_or_lt
  · exact heq ▸ hmeta
  · exact (inv.rep.geometry.pageAddr_lt (inv.inside hlt)).trans (by decide)

theorem nodup : (s.livePages + freePages L + lost).Nodup :=
  inv.total ▸ Multiset.nodup_Ico

/-- What is in use has been handed out. -/
theorem range (hp : p ∈ s.livePages + freePages L + lost) :
    first ≤ p ∧ p < cur ∧ p < s.heap.count := by
  rw [inv.total, Multiset.mem_Ico] at hp
  exact ⟨hp.1, hp.2, hp.2.trans_le (inv.inside (hp.1.trans_lt hp.2))⟩

theorem range_live (hp : p ∈ s.livePages) : first ≤ p ∧ p < cur ∧ p < s.heap.count :=
  inv.range (Multiset.mem_add.mpr (.inl (Multiset.mem_add.mpr (.inl hp))))

theorem not_free (hp : p ∈ s.livePages) : p ∉ freePages L :=
  Multiset.disjoint_left.mp
    (Multiset.nodup_add.mp (Multiset.nodup_add.mp inv.nodup).1).2.2 hp

theorem live_not_table (hp : p ∈ pagesOf s.base s.live) : p ∉ pagesOf s.base s.tables := by
  have hnodup := (Multiset.nodup_add.mp (Multiset.nodup_add.mp inv.nodup).1).1
  exact Multiset.disjoint_left.mp (Multiset.nodup_add.mp hnodup).2.2 hp

/-- A block in use lies between the metadata and `BUMP`, off the lists. -/
theorem block_spec (hb : b ∈ s.live) :
    b.ptr = s.heap.array.pageAddr (b.span s.base).first ∧ 0 < b.num ∧
      first ≤ (b.span s.base).first ∧ (b.span s.base).first + b.num ≤ s.heap.count ∧
      ∀ p, (b.span s.base).first ≤ p → p < (b.span s.base).first + b.num →
        p ∈ pagesOf s.base s.live := by
  have hmem : b ∈ s.live + s.tables := Multiset.mem_add.mpr (.inl hb)
  have hptr := inv.blocks b hmem
  have hnum := inv.num b hmem
  have hpages : ∀ p, (b.span s.base).first ≤ p → p < (b.span s.base).first + b.num →
      p ∈ pagesOf s.base s.live := fun p hlo hhi =>
    mem_pagesOf hb (Span.mem_pages.mpr ⟨hlo, hhi⟩)
  have hlive : ∀ {p}, p ∈ pagesOf s.base s.live → p ∈ s.livePages := fun hp =>
    Multiset.mem_add.mpr (.inl hp)
  refine ⟨hptr, hnum, (inv.range_live (hlive (hpages _ le_rfl (by omega)))).1, ?_, hpages⟩
  have := (inv.range_live (hlive (hpages ((b.span s.base).first + b.num - 1)
    (by omega) (by omega)))).2.2
  omega

/-- Only the heap has changed, and neither the pages on the lists nor the rest of `BUMP` nor the
place of the page table. -/
theorem keep (rep : Represents h s.heap.count L) (array : h.array = s.heap.array)
    (bump : h.bump = s.heap.bump) : Inv { s with heap := h } L lost first cur := by
  obtain ⟨mem, array', lists, bump', accessed⟩ := h
  obtain rfl : array' = s.heap.array := array
  obtain rfl : bump' = s.heap.bump := bump
  exact ⟨rep, inv.base_le, inv.current, inv.metaEnd, inv.pos, inv.le, inv.inside, inv.total,
    inv.blocks, inv.num, inv.off, inv.metaEnd_lt⟩

end Inv

end UniAlloc.FixedHeap
