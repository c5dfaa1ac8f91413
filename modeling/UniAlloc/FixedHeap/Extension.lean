import UniAlloc.FixedHeap.Preservation

/-!
# Extending the page table

The new page table is a block of the backend. As many entries as the old heap has pages are
copied to it, and the words behind them stay what they are. If the block comes off a list,
the tags of its run are cleared before the copy.
-/

namespace UniAlloc.FixedHeap

open FreeList (PG_SIZE BumpAlloc)
open PageBump (wrappingSub wrappingAdd)
open Radix (pageKey)
open Slab (PAGE_SIZE PageBumpAlloc align12k)

/-- Entries of a copied page table. -/
theorem entry_copy (mem : Mem) (array : ArrayNode) (a count i : Nat) :
    ({ array with nodes := a } : ArrayNode).entry (copy mem array.nodes a count) i =
      if i < count then array.entry mem i else readI64 mem (a + 8 * i) := by
  simp only [ArrayNode.entry, readI64, copy]
  by_cases hi : i < count
  · rw [if_pos ⟨Nat.le_add_right _ _, by omega⟩, if_pos hi, Nat.add_sub_cancel_left,
      Nat.add_comm]
  · rw [if_neg fun h => hi (by omega), if_neg hi]

theorem copy_of_not (mem : Mem) (src : Nat) {dst count x : Nat}
    (h : ¬(dst ≤ x ∧ x < dst + 8 * count)) : copy mem src dst count x = mem x := if_neg h

namespace State

variable (s : State) (size pageSize : Nat)

/-- The pages of the heap once it is longer by `size` bytes. -/
def newCount : Nat := (s.heap.bump.checkPoint + size - s.base) / PAGE_SIZE

/-- The entries that are copied. -/
def copied : Nat := (s.heap.bump.checkPoint - s.base) / pageSize

/-- The bytes of the new page table. -/
def tableBytes : Nat := (s.heap.bump.checkPoint + size - s.base) / pageSize * 8

/-- `ArrayNode::extend_with_range` returns, every page has the entry that it had before, and
every new page has the entry `0`. -/
def Kept : Prop :=
  ∃ h prev n, (s.heap.extendBump size).extendWithRange size (s.heap.extendBump size).bump.checkPoint
      pageSize = some (h, prev, n) ∧
    (∀ p < s.heap.count, (h.getMut (s.heap.array.pageAddr p)).1 =
      (s.heap.getMut (s.heap.array.pageAddr p)).1) ∧
    ∀ p, s.heap.count ≤ p → p < s.newCount size → (h.getMut (s.heap.array.pageAddr p)).1 = 0

/-- No list has a run for the new page table, `BUMP` has room for it, and the words that are not
copied, the first ones at `current`, are what they should be. -/
structure Clean : Prop where
  pos : 0 < pageSize
  unserved : ¬s.heap.Served (s.tableBytes size pageSize)
  room : (PageBump.allocFixed (PageBump.extendWithRange s.heap.bump size)
    (s.tableBytes size pageSize)).2 = .ok s.heap.bump.current
  /-- Every page is copied, unless the page size is wrong. -/
  kept : ∀ p < s.heap.count, s.copied pageSize ≤ p →
    readI64 s.heap.mem (s.heap.bump.current + 8 * p) = s.heap.array.entry s.heap.mem p
  clear : ∀ p, s.heap.count ≤ p → p < s.newCount size →
    readI64 s.heap.mem
      ((if p < s.copied pageSize then s.heap.array.nodes else s.heap.bump.current) + 8 * p) = 0

end State

variable {s : State} {L L' : Nat → List Nat} {lost : Multiset Nat}
  {first cur i n p size pageSize : Nat} {h h' : Heap} {b : Block}

namespace Inv

variable (inv : Inv s L lost first cur)

include inv

omit inv in
theorem extendBump_eq (bound : s.heap.bump.checkPoint + size < 2 ^ 48) :
    s.heap.extendBump size =
      { s.heap with bump := ⟨s.heap.bump.checkPoint + size, s.heap.bump.current⟩ } := by
  rw [Heap.extendBump, PageBump.extendWithRange, wrappingAdd, Nat.mod_eq_of_lt (by omega)]

/-- What `extend_with_range` does with the answer of the backend. -/
theorem extendWithRange_eq (bound : s.heap.bump.checkPoint + size < 2 ^ 48)
    (hpos : 0 < pageSize) :
    (s.heap.extendBump size).extendWithRange size (s.heap.extendBump size).bump.checkPoint
        pageSize =
      ((s.heap.extendBump size).alloc (s.tableBytes size pageSize)).bind fun r =>
        match r.2 with
        | .ok array => some ({ r.1 with
            mem := copy r.1.mem s.heap.array.nodes array (s.copied pageSize)
            array := { r.1.array with nodes := array } }, s.heap.array.nodes, s.copied pageSize)
        | .error _ => none := by
  have hbase := inv.base_le
  simp only [State.base] at hbase
  have hold : wrappingSub (wrappingSub (s.heap.bump.checkPoint + size) size) s.heap.array.base =
      s.heap.bump.checkPoint - s.heap.array.base := by
    simp only [wrappingSub]
    omega
  have hnew : wrappingSub (s.heap.bump.checkPoint + size) s.heap.array.base =
      s.heap.bump.checkPoint + size - s.heap.array.base := by
    simp only [wrappingSub]
    omega
  rw [extendBump_eq bound, Heap.extendWithRange, if_neg hpos.ne']
  simp only [hold, hnew, State.tableBytes, State.copied, State.base]
  rfl

/-- The page table still has a place in the longer heap. -/
theorem geometry_extend (bound : s.heap.bump.checkPoint + size < 2 ^ 48) {a : Nat} (ha : a ≠ 0) :
    Geometry { s.heap.array with nodes := a } (s.newCount size) := by
  have hbase := inv.base_le
  refine ⟨inv.rep.base_pos, ?_, ha⟩
  simp only [State.newCount, State.base, PAGE_SIZE] at hbase ⊢
  omega

/-- The new page table follows the pages that have been handed out. -/
theorem allocTable (bound : s.heap.bump.checkPoint + size < 2 ^ 48)
    (clean : s.Clean size PAGE_SIZE) :
    s.heap.array.pageAddr (cur + tablePages (s.newCount size)) ≤ s.heap.bump.checkPoint + size ∧
      (s.heap.extendBump size).alloc (s.tableBytes size PAGE_SIZE) =
        some ({ s.heap with bump := ⟨s.heap.bump.checkPoint + size,
          s.heap.array.pageAddr (cur + tablePages (s.newCount size))⟩ },
          .ok (s.heap.array.pageAddr cur)) := by
  have rep : Represents (s.heap.extendBump size) s.heap.count L :=
    inv.rep.frame rfl rfl (fun _ _ _ _ => rfl) (fun _ _ => rfl) fun p => inv.rep.nonneg
  obtain ⟨hserved, -⟩ | ⟨-, hcall⟩ := rep.alloc_spec (s.tableBytes size PAGE_SIZE)
  · exact absurd hserved clean.unserved
  have hsize : BumpAlloc.allocSize (s.tableBytes size PAGE_SIZE) =
      tablePages (s.newCount size) * PAGE_SIZE := rfl
  have hle : tablePages (s.newCount size) * PAGE_SIZE ≤ s.heap.bump.checkPoint + size := by
    have := inv.base_le
    simp only [tablePages, State.newCount, State.base, PAGE_SIZE] at this ⊢
    omega
  have hroom : ((s.heap.extendBump size).allocBump (s.tableBytes size PAGE_SIZE)).2 =
      .ok s.heap.bump.current := clean.room
  rw [extendBump_eq bound] at hcall hroom
  have hbump := Heap.allocBump_of_le (h := { s.heap with
    bump := ⟨s.heap.bump.checkPoint + size, s.heap.bump.current⟩ })
    (show BumpAlloc.allocSize (s.tableBytes size PAGE_SIZE) ≤ _ from hsize ▸ hle)
    (by simp only; omega)
  simp only [hsize, inv.current, ArrayNode.pageAddr_add] at hbump hcall hroom ⊢
  rw [hbump] at hcall hroom
  split at hroom
  · cases hroom
  · next hlarge =>
      rw [if_neg hlarge] at hcall
      rw [extendBump_eq bound, inv.current]
      exact ⟨Nat.le_of_not_lt hlarge, hcall⟩

omit inv in
/-- The new page table lies in its pages. -/
theorem inPage_of_inTable {array : ArrayNode} {count x : Nat}
    (h : ({ array with nodes := array.pageAddr cur } : ArrayNode).InArray count x)
    (hx : array.InPage p x) : cur ≤ p ∧ p < cur + tablePages count := by
  simp only [ArrayNode.InArray, ArrayNode.InPage, ArrayNode.pageAddr, tablePages, PAGE_SIZE]
    at h hx ⊢
  omega

theorem lengthened (bound : s.heap.bump.checkPoint + size < 2 ^ 48)
    (clean : s.Clean size PAGE_SIZE) (hcount : s.heap.count ≤ s.newCount size)
    (hend : cur + tablePages (s.newCount size) ≤ s.newCount size) :
    Inv { s with
      heap := { s.heap with
        bump := ⟨s.heap.bump.checkPoint + size,
          s.heap.array.pageAddr (cur + tablePages (s.newCount size))⟩
        mem := copy s.heap.mem s.heap.array.nodes (s.heap.array.pageAddr cur) s.heap.count
        array := { s.heap.array with nodes := s.heap.array.pageAddr cur } }
      tables := ⟨s.heap.array.pageAddr cur, tablePages (s.newCount size)⟩ ::ₘ s.tables } L lost
      first (cur + tablePages (s.newCount size)) := by
  have hold : ∀ p < cur, ∀ x, s.heap.array.InPage p x →
      copy s.heap.mem s.heap.array.nodes (s.heap.array.pageAddr cur) s.heap.count x =
        s.heap.mem x := fun p hp x hx =>
    copy_of_not _ _ fun h => hp.not_ge (hx.le_iff.mp h.1)
  have hentry := entry_copy s.heap.mem s.heap.array (s.heap.array.pageAddr cur) s.heap.count
  have hfree : ∀ p ∈ freePages L, p < cur := fun p hp =>
    (inv.range (Multiset.mem_add.mpr (.inl (Multiset.mem_add.mpr (.inr hp))))).2.1
  refine ⟨⟨?_, ?_, ⟨?_, ?_⟩, inv.rep.nodup, ?_, ?_⟩, ?_, rfl, inv.metaEnd, inv.pos, ?_,
    fun _ => hend, ?_, ?_, ?_, ?_, inv.metaEnd_lt⟩
  · exact inv.geometry_extend bound (Nat.add_pos_left inv.rep.base_pos _).ne'
  · exact inv.rep.threaded.congr fun p hp => hold p (hfree p hp)
  · intro idx hidx i hi
    have hlt : ∀ p, i ≤ p → p ≤ i + idx → p < s.heap.count := fun p hlo hhi =>
      (inv.rep.run_pages hidx hi hlo hhi).2.2
    rw [hentry, hentry, if_pos (hlt _ le_rfl (Nat.le_add_right _ _)),
      if_pos (hlt _ (Nat.le_add_right _ _) le_rfl)]
    exact inv.rep.tagged.ends idx hidx i hi
  · intro p hp hneg
    rw [hentry] at hneg
    split at hneg
    · next hlt => exact inv.rep.tagged.others p hlt hneg
    · next hge =>
        have hzero := clean.clear p (Nat.le_of_not_lt hge) hp
        have hcopied : ¬p < s.copied PAGE_SIZE := hge
        rw [if_neg hcopied, inv.current] at hzero
        exact absurd hzero hneg.ne
  · exact fun p hp => (inv.rep.inside p hp).imp_right fun h => h.trans_le hcount
  · exact fun p hp x hx h => (hfree p hp).not_ge (inPage_of_inTable h hx).1
  · exact inv.base_le.trans (Nat.le_add_right _ _)
  · exact inv.le.trans (Nat.le_add_right _ _)
  · rw [← Multiset.Ico_add_Ico_eq_Ico inv.le (Nat.le_add_right cur _), ← inv.total]
    simp only [State.livePages, State.base, pagesOf_cons, span_pageAddr, Span.pages]
    ac_rfl
  · intro b hb
    simp only [Multiset.add_cons, Multiset.mem_cons] at hb
    obtain rfl | hb := hb
    · simp only [State.base, span_pageAddr]
      rfl
    · exact inv.blocks b hb
  · intro b hb
    simp only [Multiset.add_cons, Multiset.mem_cons] at hb
    obtain rfl | hb := hb
    · have := inv.pos
      have := inv.le
      simp only [tablePages, PAGE_SIZE] at hend ⊢
      omega
    · exact inv.num b hb
  · intro p _ hp x hx h
    refine hp (mem_pagesOf (Multiset.mem_cons_self _ _) ?_)
    simp only [State.base, span_pageAddr, Span.mem_pages]
    exact inPage_of_inTable h hx

/-- The extended heap: the entries of all pages are as before, and new pages have none. -/
theorem lengthen (bound : s.heap.bump.checkPoint + size < 2 ^ 48)
    (clean : s.Clean size PAGE_SIZE) :
    ∃ h, (s.heap.extendBump size).extendWithRange size (s.heap.extendBump size).bump.checkPoint
        PAGE_SIZE = some (h, s.heap.array.nodes, s.heap.count) ∧
      h.array = { s.heap.array with nodes := s.heap.array.pageAddr cur } ∧
      h.accessed = s.heap.accessed ∧ h.count = s.newCount size ∧
      cur + tablePages h.count ≤ h.count ∧
      Inv { s with heap := h, tables := ⟨h.array.nodes, tablePages h.count⟩ ::ₘ s.tables } L lost
        first (cur + tablePages h.count) := by
  obtain ⟨hroom, hcall⟩ := inv.allocTable bound clean
  have hrun := inv.extendWithRange_eq bound (by decide : 0 < PAGE_SIZE)
  rw [hcall, Option.bind_some] at hrun
  have hcount : s.heap.count ≤ s.newCount size := by
    have := inv.base_le
    simp only [Heap.count, State.newCount, State.base, PAGE_SIZE] at this ⊢
    omega
  have hend : cur + tablePages (s.newCount size) ≤ s.newCount size := by
    simp only [ArrayNode.pageAddr, State.newCount, State.base, PAGE_SIZE] at hroom ⊢
    omega
  refine ⟨_, hrun, rfl, rfl, rfl, hend, ?_⟩
  exact inv.lengthened bound clean hcount hend

omit inv in
theorem alignDown_table (count : Nat) (hcount : count < 2 ^ 48) :
    DescBump.alignDown (count * 8 + PAGE_SIZE - 1) PAGE_SIZE = tablePages count * PAGE_SIZE :=
  and_clear_low (k := 12) (by simp only [PAGE_SIZE]; omega) (by decide)

/-- The block of the old page table is given back. -/
theorem giveTable {h₁ : Heap}
    (inv₁ : Inv { s with
      heap := h₁
      tables := ⟨h₁.array.nodes, tablePages h₁.count⟩ ::ₘ s.tables } L lost first
        (cur + tablePages h₁.count))
    (harray : h₁.array = { s.heap.array with nodes := s.heap.array.pageAddr cur })
    (hend : cur + tablePages h₁.count ≤ h₁.count) (htable : s.table ∈ s.tables) :
    ∃ h, h₁.free s.heap.array.nodes (tablePages s.heap.count * PAGE_SIZE) = some h ∧
      h.array = h₁.array ∧ h.count = h₁.count ∧ Logged h₁.count h₁ h ∧
      Inv { s with
        heap := h
        tables := ⟨h₁.array.nodes, tablePages h₁.count⟩ ::ₘ s.tables.erase s.table }
        (freed L (s.table.span s.base).first (tablePages s.heap.count))
        (if tablePages s.heap.count ≤ BACKEND_MAX_PAGE then lost
          else (s.table.span s.base).pages + lost) first (cur + tablePages h₁.count) := by
  have hmem : s.table ∈ s.live + s.tables := Multiset.mem_add.mpr (.inr htable)
  have hptr : s.heap.array.nodes = s.heap.array.pageAddr (s.table.span s.base).first :=
    inv.blocks _ hmem
  have hnum : 0 < tablePages s.heap.count := inv.num _ hmem
  have hrange : ∀ p, (s.table.span s.base).first ≤ p →
      p < (s.table.span s.base).first + tablePages s.heap.count → first ≤ p ∧ p < cur :=
    fun p hlo hhi => (inv.range_live (Multiset.mem_add.mpr (.inr
      (mem_pagesOf htable (Span.mem_pages.mpr ⟨hlo, hhi⟩))))).imp_right And.left
  have hpos : 0 < tablePages h₁.count :=
    inv₁.num _ (Multiset.mem_add.mpr (.inr (Multiset.mem_cons_self _ _)))
  have hfirst := hrange _ le_rfl (by omega)
  have hlast := hrange ((s.table.span s.base).first + tablePages s.heap.count - 1)
    (by omega) (by omega)
  have hfree : Freeable h₁ h₁.count L (s.table.span s.base).first (tablePages s.heap.count) := by
    refine ⟨inv.pos.trans_le hfirst.1, hnum, by omega, fun p hlo hhi => ?_,
      fun p hlo hhi x hx h => ?_, fun heq => absurd heq ?_⟩
    · exact inv.not_free (Multiset.mem_add.mpr (.inr
        (mem_pagesOf htable (Span.mem_pages.mpr ⟨hlo, hhi⟩))))
    · rw [harray] at hx h
      exact (hrange p hlo hhi).2.not_ge (inPage_of_inTable h hx).1
    · omega
  have hsize : originSize (tablePages s.heap.count * PAGE_SIZE) + 1 = tablePages s.heap.count := by
    have hbound := inv.rep.geometry.bound
    simp only [originSize, tablePages, wrappingSub, PG_SIZE, PAGE_SIZE] at hnum hbound ⊢
    omega
  have hpages : ({ s with
      heap := h₁
      tables := ⟨h₁.array.nodes, tablePages h₁.count⟩ ::ₘ s.tables } : State).livePages =
      (⟨(s.table.span s.base).first, tablePages s.heap.count⟩ : Span).pages +
        (pagesOf s.base s.live +
          pagesOf s.base (⟨h₁.array.nodes, tablePages h₁.count⟩ ::ₘ s.tables.erase s.table)) := by
    simp only [State.livePages, State.base, harray, pagesOf_cons]
    rw [pagesOf_erase htable]
    have : (s.table.span s.heap.array.base).pages =
      (⟨(s.table.span s.base).first, tablePages s.heap.count⟩ : Span).pages := rfl
    rw [this]
    simp only [State.base]
    ac_rfl
  obtain ⟨h, hcall, changed, logged, -, hinv⟩ := inv₁.give hfree hsize hpages
  have hcount := Heap.count_congr changed.array changed.bump
  have haddr : h₁.array.pageAddr (s.table.span s.base).first = s.heap.array.nodes := by
    rw [hptr, harray]
    rfl
  rw [haddr] at hcall
  simp only at logged
  rw [Nat.max_eq_left (by omega)] at logged
  refine ⟨h, hcall, changed.array, hcount, logged, hinv _ rfl rfl ?_ ?_ fun p hp hout => ?_⟩
  · simp only [State.livePages, State.base, changed.array, harray]
  · exact add_le_add_right (Multiset.cons_le_cons _ (Multiset.erase_le _ _)) _
  · have hmem : p ∈ (s.table.span s.base).pages := by
      simp only [State.base, harray, pagesOf_cons, Multiset.mem_add, not_or]
        at hp hout
      rw [pagesOf_erase htable] at hp
      exact (Multiset.mem_add.mp (hp.resolve_left hout.1)).resolve_right hout.2
    obtain ⟨hlo, hhi⟩ := Span.mem_pages.mp hmem
    exact hfree.off p hlo hhi

/-- The old page table goes to `PG_BUMP`, or its block is given back. -/
theorem extend {pgBump pgBump' : PageBumpAlloc} (bound : s.heap.bump.checkPoint + size < 2 ^ 48)
    (clean : s.Clean size PAGE_SIZE) (hold : s.Continues pgBump ∨ s.table ∈ s.tables)
    (hcall : s.heap.extend pgBump size PAGE_SIZE = some (h, pgBump')) :
    ∃ L' lost' cur', Inv { s with heap := h, tables := s.tablesAfter pgBump h } L' lost' first
        cur' ∧
      Logged h.count s.heap h ∧ s.heap.count ≤ h.count ∧
      ((s.Continues pgBump ∨ tablePages s.heap.count ≤ BACKEND_MAX_PAGE) → lost' = lost) := by
  obtain ⟨h₁, hrun, harray, haccessed, hcount, hend, inv₁⟩ := inv.lengthen bound clean
  have hle : s.heap.count ≤ h₁.count := by
    have := inv.base_le
    rw [hcount]
    simp only [Heap.count, State.newCount, State.base, PAGE_SIZE] at this ⊢
    omega
  rw [Heap.extend] at hcall
  dsimp only at hcall
  rw [hrun, Option.bind_eq_bind, Option.bind_some] at hcall
  dsimp only at hcall
  by_cases hcontinues : s.Continues pgBump
  · have hend' : s.heap.array.nodes + s.heap.count * 8 = pgBump.start := hcontinues
    rw [DescBump.tryExtend, if_pos hend'] at hcall
    cases hcall
    refine ⟨L, lost, cur + tablePages h.count, ?_, ⟨[], haccessed, by simp⟩, hle, fun _ => rfl⟩
    rw [State.tablesAfter, if_pos hcontinues]
    exact inv₁
  · have htable := hold.resolve_left hcontinues
    have hend' : s.heap.array.nodes + s.heap.count * 8 ≠ pgBump.start := hcontinues
    obtain ⟨h', hfree, hbase, hcount', logged, inv'⟩ :=
      inv.giveTable inv₁ harray hend htable
    have hsmall : s.heap.count < 2 ^ 48 := by
      have := inv.rep.geometry.bound
      simp only [PAGE_SIZE] at this
      omega
    rw [DescBump.tryExtend, if_neg hend', alignDown_table _ hsmall, hfree] at hcall
    dsimp only at hcall
    split at hcall
    · cases hcall
      rw [← hcount', ← hbase] at inv'
      obtain ⟨l, hl, hlt⟩ := logged
      have hlogged : Logged h.count s.heap h :=
        ⟨l, haccessed ▸ hl, fun q hq => hcount'.symm ▸ hlt q hq⟩
      rw [State.tablesAfter, if_neg hcontinues]
      exact ⟨_, _, _, inv', hlogged, hcount'.symm ▸ hle,
        fun h => if_pos (h.resolve_left hcontinues)⟩
    · cases hcall

end Inv

end UniAlloc.FixedHeap
