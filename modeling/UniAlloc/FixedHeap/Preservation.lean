import UniAlloc.FixedHeap.Invariant
import UniAlloc.SizeClass.Small
import UniAlloc.Transition.Basic

/-!
# Every step keeps the invariant

A block comes from a list or from `BUMP`, and goes back to a list or is lost. The slab
allocators change entries of pages in use only.
-/

namespace UniAlloc.FixedHeap

open FreeList (PG_SIZE BumpAlloc)
open Radix (pageKey)
open Slab (PAGE_SIZE PageBumpAlloc align12k)

variable {s t : State} {m : Move} {L L' : Nat → List Nat} {lost rest : Multiset Nat}
  {first cur i n p size : Nat} {h h' : Heap} {b : Block}

namespace Inv

variable (inv : Inv s L lost first cur)

include inv

/-- A run of a list is handed out. -/
theorem take (taken : Taken s.heap.count s.heap h L L' i n) (hn : 0 < n) :
    Inv { s with heap := h, live := ⟨s.heap.array.pageAddr i, n⟩ ::ₘ s.live } L' lost first cur := by
  have hcount := Heap.count_congr taken.changed.array taken.changed.bump
  have htotal := inv.total
  rw [taken.pages] at htotal
  obtain ⟨mem, array', lists, bump', accessed⟩ := h
  obtain rfl : array' = s.heap.array := taken.changed.array
  obtain rfl : bump' = s.heap.bump := taken.changed.bump
  refine ⟨taken.rep, inv.base_le, inv.current, inv.metaEnd, inv.pos, inv.le, inv.inside, ?_,
    fun b hb => ?_, fun b hb => ?_, inv.off, inv.metaEnd_lt⟩
  · refine Eq.trans ?_ htotal
    simp only [State.livePages, State.base, pagesOf_cons, span_pageAddr]
    ac_rfl
  · simp only [Multiset.cons_add, Multiset.mem_cons] at hb
    obtain rfl | hb := hb
    · simp only [State.base, span_pageAddr]
    · exact inv.blocks b hb
  · simp only [Multiset.cons_add, Multiset.mem_cons] at hb
    exact hb.elim (fun heq => heq ▸ hn) (inv.num b)

/-- Pages that have not been handed out before follow. -/
theorem bump (hn : 0 < n) (hroom : s.heap.array.pageAddr (cur + n) ≤ s.heap.bump.checkPoint) :
    Inv { s with
      heap := { s.heap with bump := ⟨s.heap.bump.checkPoint, s.heap.array.pageAddr (cur + n)⟩ }
      live := ⟨s.heap.array.pageAddr cur, n⟩ ::ₘ s.live } L lost first (cur + n) := by
  have hle : cur + n ≤ s.heap.count := by
    simp only [ArrayNode.pageAddr, Heap.count, PAGE_SIZE] at hroom ⊢
    omega
  have hcur := inv.le
  refine ⟨?_, inv.base_le, rfl, inv.metaEnd, inv.pos, by omega, fun _ => hle, ?_, fun b hb => ?_,
    fun b hb => ?_, inv.off, inv.metaEnd_lt⟩
  · exact inv.rep.frame rfl rfl (fun _ _ _ _ => rfl) (fun _ _ => rfl) fun p => inv.rep.nonneg
  · rw [← Multiset.Ico_add_Ico_eq_Ico inv.le (Nat.le_add_right cur n), ← inv.total]
    simp only [State.livePages, State.base, pagesOf_cons, span_pageAddr, Span.pages]
    ac_rfl
  · simp only [Multiset.cons_add, Multiset.mem_cons] at hb
    obtain rfl | hb := hb
    · simp only [State.base, span_pageAddr]
    · exact inv.blocks b hb
  · simp only [Multiset.cons_add, Multiset.mem_cons] at hb
    exact hb.elim (fun heq => heq ▸ hn) (inv.num b)

/-- A request that fits is served by a list, by `BUMP` or not at all. -/
theorem alloc_cases (hpos : 0 < size) (hlt : size < 2 ^ 63) (hfits : s.heap.Fits size) :
    (∃ h L' i, s.heap.alloc size = some (h, .ok (s.heap.array.pageAddr i)) ∧
      Taken s.heap.count s.heap h L L' i (originSize size + 1)) ∨
    ¬s.heap.Served size ∧
      (s.heap.array.pageAddr (cur + (originSize size + 1)) ≤ s.heap.bump.checkPoint ∧
        s.heap.alloc size = some ({ s.heap with bump := ⟨s.heap.bump.checkPoint,
          s.heap.array.pageAddr (cur + (originSize size + 1))⟩ },
          .ok (s.heap.array.pageAddr cur)) ∨
      s.heap.bump.checkPoint < s.heap.array.pageAddr (cur + (originSize size + 1)) ∧
        s.heap.alloc size = some (s.heap, .error .ENOMEM)) := by
  obtain ⟨-, h, L', i, hcall, taken⟩ | ⟨hserved, hcall⟩ := inv.rep.alloc_spec size
  · exact .inl ⟨h, L', i, hcall, taken⟩
  · have hcheck := inv.checkPoint_lt
    rw [Heap.allocBump_of_le (hfits.resolve_left hserved) (by omega),
      Heap.allocSize_eq hpos hlt, inv.current, ArrayNode.pageAddr_add] at hcall
    refine .inr ⟨hserved, ?_⟩
    by_cases hlarge :
        s.heap.bump.checkPoint < s.heap.array.pageAddr (cur + (originSize size + 1))
    · rw [if_pos hlarge] at hcall
      exact .inr ⟨hlarge, hcall⟩
    · rw [if_neg hlarge] at hcall
      exact .inl ⟨Nat.le_of_not_lt hlarge, hcall⟩

theorem freeable (hb : b ∈ s.live) (behind : (b.span s.base).first + b.num = s.heap.count →
      0 ≤ s.heap.array.entry s.heap.mem s.heap.count) :
    Freeable s.heap s.heap.count L (b.span s.base).first b.num := by
  obtain ⟨-, hnum, hfirst, hle, hpages⟩ := inv.block_spec hb
  refine ⟨inv.pos.trans_le hfirst, hnum, hle, fun p hlo hhi => ?_, fun p hlo hhi => ?_, behind⟩
  · exact inv.not_free (Multiset.mem_add.mpr (.inl (hpages p hlo hhi)))
  · exact inv.off p (hfirst.trans hlo) (inv.live_not_table (hpages p hlo hhi))

/-- Pages in use are given back. They are lost if there is no list for them. -/
theorem give (free : Freeable s.heap s.heap.count L i n) (hsize : originSize size + 1 = n)
    (hpages : s.livePages = (⟨i, n⟩ : Span).pages + rest) :
    ∃ h, s.heap.free (s.heap.array.pageAddr i) size = some h ∧
      Changed (freePages (freed L i n)) s.heap.count s.heap h ∧
      Logged (max s.heap.count (i + n + 1)) s.heap h ∧ i + n ∈ h.accessed ∧
      ∀ t : State, t.heap = h → t.metaEnd = s.metaEnd → t.livePages = rest →
        t.live + t.tables ≤ s.live + s.tables →
        (∀ p ∈ pagesOf s.base s.tables, p ∉ pagesOf s.base t.tables →
          ∀ x, s.heap.array.InPage p x → ¬s.heap.array.InArray s.heap.count x) →
        Inv t (freed L i n)
          (if n ≤ BACKEND_MAX_PAGE then lost else (⟨i, n⟩ : Span).pages + lost) first cur := by
  obtain ⟨h, hcall, rep, changed, logged, hmem⟩ := inv.rep.free_spec free hsize
  refine ⟨h, hcall, changed, logged, hmem, fun t heq hmeta hlive hsub hoff => ?_⟩
  have hcount := Heap.count_congr changed.array changed.bump
  obtain ⟨heap, metaEnd, live, tables⟩ := t
  obtain ⟨mem, array', lists, bump', accessed⟩ := heap
  obtain rfl : _ = h := heq
  obtain rfl : array' = s.heap.array := changed.array
  obtain rfl : bump' = s.heap.bump := changed.bump
  refine ⟨rep, inv.base_le, inv.current, hmeta.trans inv.metaEnd, inv.pos, inv.le, inv.inside, ?_,
    fun b hb => inv.blocks b (Multiset.mem_of_le hsub hb),
    fun b hb => inv.num b (Multiset.mem_of_le hsub hb), fun p hp hout => ?_,
    hmeta.trans_lt inv.metaEnd_lt⟩
  · have htotal := inv.total
    rw [hpages] at htotal
    rw [hlive, ← htotal, freed]
    have hnum := free.num
    split
    · rw [freePages_push (by omega), Nat.sub_add_cancel hnum]
      ac_rfl
    · ac_rfl
  · by_cases htable : p ∈ pagesOf s.base s.tables
    · exact hoff p htable hout
    · exact inv.off p hp htable

/-- A block in use is given back. -/
theorem free (hb : b ∈ s.live) (hsize : originSize size + 1 = b.num)
    (behind : (b.span s.base).first + b.num = s.heap.count →
      0 ≤ s.heap.array.entry s.heap.mem s.heap.count) :
    ∃ h, s.heap.free b.ptr size = some h ∧ h.count = s.heap.count ∧
      Logged (max s.heap.count ((b.span s.base).first + b.num + 1)) s.heap h ∧
      (b.span s.base).first + b.num ∈ h.accessed ∧
      Inv { s with heap := h, live := s.live.erase b } (freed L (b.span s.base).first b.num)
        (if b.num ≤ BACKEND_MAX_PAGE then lost else (b.span s.base).pages + lost) first cur := by
  have hpages : s.livePages = (b.span s.base).pages +
      (pagesOf s.base (s.live.erase b) + pagesOf s.base s.tables) := by
    rw [State.livePages, pagesOf_erase hb, Multiset.add_assoc]
  obtain ⟨h, hcall, changed, logged, hmem, hinv⟩ :=
    inv.give (inv.freeable hb behind) hsize hpages
  rw [← (inv.block_spec hb).1] at hcall
  have hcount := Heap.count_congr changed.array changed.bump
  refine ⟨h, hcall, hcount, logged, hmem, hinv _ rfl rfl ?_
    (Multiset.add_le_add_right (Multiset.erase_le b s.live)) fun p hp hout => absurd hp hout⟩
  simp only [State.livePages, State.base, changed.array]

/-- The page of an address in use is in the page table. -/
theorem align12k_eq (aligned : s.base % PAGE_SIZE = 0) {a : Nat} (hp : p ≤ s.heap.count)
    (hin : s.heap.array.InPage p a) : align12k a = s.heap.array.pageAddr p := by
  have hbound := inv.rep.geometry.bound
  have hlt : a < 2 ^ 64 := by
    simp only [ArrayNode.InPage, ArrayNode.pageAddr, PAGE_SIZE] at hin hbound
    omega
  have hclear : align12k a = a / 2 ^ 12 * 2 ^ 12 := and_clear_low (k := 12) hlt (by decide)
  simp only [ArrayNode.InPage, ArrayNode.pageAddr, PAGE_SIZE, State.base] at hin aligned ⊢
  omega

/-- Entries of pages in use are set to a value that is no tag. -/
theorem insert {k : Nat} {v : Int} (aligned : s.base % PAGE_SIZE = 0) (hb : b ∈ s.live)
    (hk : k + n ≤ b.num) (hv : IsI64 v) (hnonneg : 0 ≤ v) :
    ∃ h, s.heap.insert (align12k b.ptr + PAGE_SIZE * k) v n = some h ∧
      h.count = s.heap.count ∧ Logged s.heap.count s.heap h ∧
        Inv { s with heap := h } L lost first cur := by
  obtain ⟨hptr, hnum, hfirst, hle, hpages⟩ := inv.block_spec hb
  have haddr : align12k b.ptr + PAGE_SIZE * k =
      s.heap.array.pageAddr ((b.span s.base).first + k) := by
    rw [inv.align12k_eq aligned (p := (b.span s.base).first) (by omega), Nat.mul_comm,
      ArrayNode.pageAddr_add]
    rw [hptr]
    exact ⟨le_rfl, Nat.lt_add_of_pos_right (by decide)⟩
  obtain ⟨h, hcall, rep, changed, logged⟩ := inv.rep.fill_spec (i := (b.span s.base).first + k)
    (n := n) hv hnonneg (by omega) fun p hlo hhi =>
      inv.not_free (Multiset.mem_add.mpr (.inl (hpages p (by omega) (by omega))))
  exact ⟨h, haddr ▸ hcall, Heap.count_congr changed.array changed.bump, logged,
    inv.keep rep changed.array changed.bump⟩

/-- An address in use is looked up. -/
theorem lookup {a : Nat} (aligned : s.base % PAGE_SIZE = 0) (hb : b ∈ s.live) (hlo : b.ptr ≤ a)
    (hhi : a < b.ptr + b.num * PAGE_SIZE) :
    Logged s.heap.count s.heap (s.heap.getMut (align12k a)).2 ∧
      Inv { s with heap := (s.heap.getMut (align12k a)).2 } L lost first cur := by
  obtain ⟨hptr, hnum, hfirst, hle, -⟩ := inv.block_spec hb
  rw [hptr] at hlo hhi
  have hin : s.heap.array.InPage _ a :=
    ArrayNode.inPage_of_le ((Nat.le_add_right _ _).trans hlo)
  generalize (a - s.heap.array.base) / PAGE_SIZE = p at hin
  rw [ArrayNode.pageAddr_add] at hhi
  have hp : p < s.heap.count := (hin.lt_iff.mp hhi).trans_le hle
  rw [inv.align12k_eq aligned hp.le hin, Heap.getMut_pageAddr inv.rep.geometry hp.le]
  exact ⟨Heap.logged_cons hp rfl, inv.keep (inv.rep.relog _) rfl rfl⟩

/-- Memory is written. -/
theorem store {a v : Nat} (hwrite : s.Writable a) :
    Inv { s with heap := { s.heap with mem := Function.update s.heap.mem a v } } L lost first
      cur := by
  obtain ⟨harray, hheld⟩ := hwrite
  have hentry : ∀ p < s.heap.count,
      s.heap.array.entry (Function.update s.heap.mem a v) p = s.heap.array.entry s.heap.mem p := by
    intro p hp
    refine ArrayNode.entry_congr (Function.update_of_ne ?_ _ _)
    rintro rfl
    exact harray ⟨Nat.le_add_right _ _, by omega⟩
  refine inv.keep (inv.rep.frame rfl rfl (fun p hp x hx => Function.update_of_ne ?_ _ _)
    (fun p hp => hentry p (inv.rep.inside p hp).2) fun p hp hfree => ?_) rfl rfl
  · rintro rfl
    obtain ⟨hlo, hhi, -⟩ := inv.range (Multiset.mem_add.mpr (.inl (Multiset.mem_add.mpr (.inr hp))))
    obtain ⟨q, hq, hqx⟩ := hheld (inv.metaEnd ▸ hx.le_iff.mpr hlo) (inv.current ▸ hx.lt_iff.mpr hhi)
    obtain rfl := ArrayNode.inPage_unique hx hqx
    exact inv.not_free hq hp
  · rw [hentry p hp]
    exact inv.rep.nonneg hp hfree

end Inv

end UniAlloc.FixedHeap
