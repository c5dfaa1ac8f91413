import UniAlloc.FixedHeap.Basic
import UniAlloc.FreeList.Nodes
import UniAlloc.Ledger.Basic
import Mathlib.Order.Interval.Multiset

/-!
# What the free lists of a fixed heap represent

`L idx` lists the first pages of the runs of list `idx`, by their numbers within the heap.
The nodes are threaded through memory, the page table is tagged at both ends of every free
run, the runs do not overlap, and the page table lies outside of them. Merging never
happens, because `remove_spec_one` compares the successor of a node with the node itself.
-/

namespace UniAlloc.FixedHeap

open FreeList (PG_SIZE tag flag)
open FreeList.DoubleLinkedList
open Radix (pageKey)
open Slab (PAGE_SIZE)

/-- A run of pages of the heap. -/
structure Span where
  first : Nat
  num : Nat
  deriving DecidableEq

namespace Span

def pages (b : Span) : Multiset Nat := Multiset.Ico b.first (b.first + b.num)

@[simp] theorem mem_pages {b : Span} {p : Nat} :
    p ∈ b.pages ↔ b.first ≤ p ∧ p < b.first + b.num := by
  simp [pages]

@[simp] theorem card_pages (b : Span) : b.pages.card = b.num :=
  (Nat.card_Ico _ _).trans (Nat.add_sub_cancel_left _ _)

/-- Cutting a run in two. -/
theorem pages_split (a m n : Nat) :
    (⟨a, m + n⟩ : Span).pages = (⟨a, m⟩ : Span).pages + (⟨a + m, n⟩ : Span).pages := by
  simp only [pages]
  rw [Multiset.Ico_add_Ico_eq_Ico (by omega) (by omega), Nat.add_assoc]

end Span

def listIndices : Finset Nat := Finset.range BACKEND_MAX_PAGE

theorem mem_listIndices {idx : Nat} : idx ∈ listIndices ↔ idx < BACKEND_MAX_PAGE :=
  Finset.mem_range

attribute [irreducible] listIndices

/-- The runs of one list. -/
def listSpans (idx : Nat) (l : List Nat) : Multiset Span :=
  (l : Multiset Nat).map fun i => ⟨i, idx + 1⟩

/-- The runs of all lists. -/
def freeSpans (L : Nat → List Nat) : Multiset Span := ∑ idx ∈ listIndices, listSpans idx (L idx)

/-- The pages of the free runs. -/
def freePages (L : Nat → List Nat) : Multiset Nat := (freeSpans L).bind Span.pages

variable {L : Nat → List Nat} {idx j i p : Nat} {rest : List Nat}

theorem mem_freeSpans {b : Span} :
    b ∈ freeSpans L ↔ ∃ idx < BACKEND_MAX_PAGE, ∃ i ∈ L idx, b = ⟨i, idx + 1⟩ := by
  simp [freeSpans, listSpans, Multiset.mem_sum, mem_listIndices, eq_comm]

theorem mem_freePages :
    p ∈ freePages L ↔ ∃ idx < BACKEND_MAX_PAGE, ∃ i ∈ L idx, i ≤ p ∧ p ≤ i + idx := by
  constructor
  · intro h
    obtain ⟨b, hb, hp⟩ := Multiset.mem_bind.mp h
    obtain ⟨idx, hidx, i, hi, rfl⟩ := mem_freeSpans.mp hb
    obtain ⟨hlo, hhi⟩ := Span.mem_pages.mp hp
    exact ⟨idx, hidx, i, hi, hlo, Nat.lt_succ_iff.mp hhi⟩
  · rintro ⟨idx, hidx, i, hi, hlo, hhi⟩
    refine Multiset.mem_bind.mpr ⟨_, mem_freeSpans.mpr ⟨idx, hidx, i, hi, rfl⟩, ?_⟩
    exact Span.mem_pages.mpr ⟨hlo, Nat.lt_succ_of_le hhi⟩

theorem freeSpans_pop (hidx : idx < BACKEND_MAX_PAGE) (hL : L idx = i :: rest) :
    freeSpans L = ⟨i, idx + 1⟩ ::ₘ freeSpans (Function.update L idx rest) := by
  have h := Ledger.sum_update listIndices listSpans L (mem_listIndices.mpr hidx) rest
  have hcons : listSpans idx (L idx) = ⟨i, idx + 1⟩ ::ₘ listSpans idx rest := by
    simp [hL, listSpans]
  rw [hcons, Multiset.add_cons, ← Multiset.cons_add] at h
  exact (add_right_cancel h).symm

theorem freePages_pop (hidx : idx < BACKEND_MAX_PAGE) (hL : L idx = i :: rest) :
    freePages L = (⟨i, idx + 1⟩ : Span).pages + freePages (Function.update L idx rest) := by
  rw [freePages, freeSpans_pop hidx hL, Multiset.cons_bind, freePages]

theorem freePages_push (hidx : idx < BACKEND_MAX_PAGE) (i : Nat) :
    freePages (Function.update L idx (i :: L idx)) =
      (⟨i, idx + 1⟩ : Span).pages + freePages L := by
  have h := freePages_pop (L := Function.update L idx (i :: L idx)) hidx
    (Function.update_self idx _ L)
  rwa [Function.update_idem, Function.update_eq_self] at h

/-- A page of two free runs identifies them. -/
theorem eq_of_page (nodup : (freePages L).Nodup) (hidx : idx < BACKEND_MAX_PAGE)
    (hj : j < BACKEND_MAX_PAGE) {i' : Nat} (hi : i ∈ L idx) (hi' : i' ∈ L j) (hp : i ≤ p)
    (hp' : p ≤ i + idx) (hq : i' ≤ p) (hq' : p ≤ i' + j) : i = i' ∧ idx = j := by
  have heq := Ledger.eq_of_shared nodup (mem_freeSpans.mpr ⟨idx, hidx, i, hi, rfl⟩)
    (mem_freeSpans.mpr ⟨j, hj, i', hi', rfl⟩)
    (Span.mem_pages.mpr ⟨hp, Nat.lt_succ_of_le hp'⟩)
    (Span.mem_pages.mpr ⟨hq, Nat.lt_succ_of_le hq'⟩)
  simpa using heq

theorem nodup_list (nodup : (freePages L).Nodup) (hidx : idx < BACKEND_MAX_PAGE) :
    (L idx).Nodup := by
  have hspans : (freeSpans L).Nodup := Ledger.nodup_of_nodup_bind nodup fun b hb h0 => by
    obtain ⟨idx, -, i, -, rfl⟩ := mem_freeSpans.mp hb
    have hmem : i ∈ (⟨i, idx + 1⟩ : Span).pages := Span.mem_pages.mpr ⟨le_rfl, by simp⟩
    rw [h0] at hmem
    exact Multiset.notMem_zero _ hmem
  have hle : listSpans idx (L idx) ≤ freeSpans L :=
    Finset.single_le_sum (f := fun idx => listSpans idx (L idx)) (fun _ _ => Multiset.zero_le _)
      (mem_listIndices.mpr hidx)
  exact Multiset.coe_nodup.mp (Multiset.Nodup.of_map _ (Multiset.nodup_of_le hle hspans))

theorem mem_update_tail (hL : L idx = i :: rest) {i' : Nat}
    (h : i' ∈ Function.update L idx rest j) : i' ∈ L j := by
  obtain rfl | hne := eq_or_ne j idx
  · rw [Function.update_self] at h
    rw [hL]
    exact List.mem_cons_of_mem i h
  · rwa [Function.update_of_ne hne] at h

theorem mem_update_cons {i' : Nat} (h : i' ∈ Function.update L idx (i :: L idx) j) :
    (i' = i ∧ j = idx) ∨ i' ∈ L j := by
  obtain rfl | hne := eq_or_ne j idx
  · rw [Function.update_self] at h
    exact (List.mem_cons.mp h).imp_left fun e => ⟨e, rfl⟩
  · rw [Function.update_of_ne hne] at h
    exact .inr h

/-- Both ends of every free run are tagged, and no other page of the heap is. -/
structure Tagged (entry : Nat → Int) (count : Nat) (L : Nat → List Nat) : Prop where
  ends : ∀ idx < BACKEND_MAX_PAGE, ∀ i ∈ L idx, entry i = tag idx ∧ entry (i + idx) = tag idx
  others : ∀ p < count, entry p < 0 → ∃ idx < BACKEND_MAX_PAGE, ∃ i ∈ L idx, p = i ∨ p = i + idx

namespace Tagged

variable {entry entry' : Nat → Int} {count : Nat}

theorem mem_of_neg (h : Tagged entry count L) (hp : p < count) (hneg : entry p < 0) :
    p ∈ freePages L := by
  obtain ⟨idx, hidx, i, hi, hpi⟩ := h.others p hp hneg
  exact mem_freePages.mpr ⟨idx, hidx, i, hi, by omega, by omega⟩

/-- Only the entries of free pages matter, as long as the others are not tags. -/
theorem congr (h : Tagged entry count L) (same : ∀ p ∈ freePages L, entry' p = entry p)
    (nonneg : ∀ p < count, p ∉ freePages L → 0 ≤ entry' p) : Tagged entry' count L := by
  refine ⟨fun idx hidx i hi => ?_, fun p hp hneg => ?_⟩
  · rw [same i (mem_freePages.mpr ⟨idx, hidx, i, hi, by omega, by omega⟩),
      same (i + idx) (mem_freePages.mpr ⟨idx, hidx, i, hi, by omega, by omega⟩)]
    exact h.ends idx hidx i hi
  · by_cases hfree : p ∈ freePages L
    · exact h.others p hp (same p hfree ▸ hneg)
    · exact absurd hneg (nonneg p hp hfree).not_gt

/-- The tags of the first run of a list are cleared. -/
theorem pop (h : Tagged entry count L) (nodup : (freePages L).Nodup)
    (inside : ∀ p ∈ freePages L, p < count) (hidx : idx < BACKEND_MAX_PAGE)
    (hL : L idx = i :: rest)
    (hentry : ∀ p < count, entry' p = if p = i ∨ p = i + idx then 0 else entry p) :
    Tagged entry' count (Function.update L idx rest) := by
  have hi : i ∈ L idx := hL ▸ List.mem_cons_self
  refine ⟨fun j hj i' hi' => ?_, fun p hp hneg => ?_⟩
  · have hmem := mem_update_tail hL hi'
    have hout : ∀ p, i' ≤ p → p ≤ i' + j → ¬(p = i ∨ p = i + idx) := by
      intro p hlo hhi hpi
      obtain ⟨rfl, rfl⟩ := eq_of_page nodup hj hidx hmem hi hlo hhi (by omega) (by omega)
      have hnd := nodup_list nodup hidx
      rw [hL] at hnd
      rw [Function.update_self] at hi'
      exact (List.nodup_cons.mp hnd).1 hi'
    have hlt : ∀ p, i' ≤ p → p ≤ i' + j → p < count := fun p hlo hhi =>
      inside p (mem_freePages.mpr ⟨j, hj, i', hmem, hlo, hhi⟩)
    rw [hentry i' (hlt _ le_rfl (by omega)), hentry _ (hlt _ (by omega) le_rfl),
      if_neg (hout i' le_rfl (by omega)), if_neg (hout _ (by omega) le_rfl)]
    exact h.ends j hj i' hmem
  · rw [hentry p hp] at hneg
    split_ifs at hneg with hpi
    · omega
    · obtain ⟨j, hj, i', hi', hpi'⟩ := h.others p hp hneg
      refine ⟨j, hj, i', ?_, hpi'⟩
      obtain rfl | hne := eq_or_ne j idx
      · rw [hL] at hi'
        obtain rfl | hi' := List.mem_cons.mp hi'
        · exact absurd hpi' hpi
        · rwa [Function.update_self]
      · rwa [Function.update_of_ne hne]

/-- A new run is tagged. -/
theorem push (h : Tagged entry count L)
    (nodup : (freePages (Function.update L idx (i :: L idx))).Nodup)
    (inside : ∀ p ∈ freePages (Function.update L idx (i :: L idx)), p < count)
    (hidx : idx < BACKEND_MAX_PAGE)
    (hentry : ∀ p < count, entry' p = if p = i ∨ p = i + idx then tag idx else entry p) :
    Tagged entry' count (Function.update L idx (i :: L idx)) := by
  have hi : i ∈ Function.update L idx (i :: L idx) idx := by simp
  refine ⟨fun j hj i' hi' => ?_, fun p hp hneg => ?_⟩
  · have hlt : ∀ p, i' ≤ p → p ≤ i' + j → p < count := fun p hlo hhi =>
      inside p (mem_freePages.mpr ⟨j, hj, i', hi', hlo, hhi⟩)
    rw [hentry i' (hlt _ le_rfl (by omega)), hentry _ (hlt _ (by omega) le_rfl)]
    by_cases hnew : i' = i ∧ j = idx
    · obtain ⟨rfl, rfl⟩ := hnew
      rw [if_pos (.inl rfl), if_pos (.inr rfl)]
      exact ⟨rfl, rfl⟩
    · have hout : ∀ p, i' ≤ p → p ≤ i' + j → ¬(p = i ∨ p = i + idx) := fun p hlo hhi hpi =>
        hnew (eq_of_page nodup hj hidx hi' hi hlo hhi (by omega) (by omega))
      rw [if_neg (hout i' le_rfl (by omega)), if_neg (hout _ (by omega) le_rfl)]
      exact h.ends j hj i' ((mem_update_cons hi').resolve_left hnew)
  · by_cases hpi : p = i ∨ p = i + idx
    · exact ⟨idx, hidx, i, hi, hpi⟩
    · rw [hentry p hp, if_neg hpi] at hneg
      obtain ⟨j, hj, i', hi', hpi'⟩ := h.others p hp hneg
      refine ⟨j, hj, i', ?_, hpi'⟩
      obtain rfl | hne := eq_or_ne j idx
      · rw [Function.update_self]
        exact List.mem_cons_of_mem i hi'
      · rwa [Function.update_of_ne hne]

end Tagged

/-- Every list is threaded through the first pages of its runs, starting at its head. -/
def Threaded (array : ArrayNode) (mem : Mem) (lists : Nat → Option Nat) (L : Nat → List Nat) :
    Prop :=
  ∀ idx < BACKEND_MAX_PAGE, lists idx = ((L idx).map array.pageAddr).head? ∧
    Linked (readPrev mem) (readNext mem) none ((L idx).map array.pageAddr)

section Threaded

variable {array : ArrayNode} {mem mem' : Mem} {lists : Nat → Option Nat}

theorem inPage_of_inNode {x : Nat} (h : InNode (array.pageAddr i) x) : array.InPage i x := by
  simp only [InNode] at h
  simp only [ArrayNode.InPage, PAGE_SIZE]
  omega

theorem nodeApart_pageAddr (array : ArrayNode) (h : i ≠ j) :
    NodeApart (array.pageAddr i) (array.pageAddr j) := by
  simp only [NodeApart, ArrayNode.pageAddr, PAGE_SIZE]
  omega

theorem pairwise_nodes {l : List Nat} (nodup : l.Nodup) (array : ArrayNode) :
    (l.map array.pageAddr).Pairwise NodeApart :=
  List.pairwise_map.mpr (nodup.imp fun h => nodeApart_pageAddr array h)

/-- Only the words of free pages matter. -/
theorem linked_congr_pages {l : List Nat} {before : Option Nat}
    (h : Linked (readPrev mem) (readNext mem) before (l.map array.pageAddr))
    (same : ∀ i ∈ l, ∀ x, array.InPage i x → mem' x = mem x) :
    Linked (readPrev mem') (readNext mem') before (l.map array.pageAddr) := by
  refine linked_congr h fun a ha k hk => ?_
  obtain ⟨i, hi, rfl⟩ := List.mem_map.mp ha
  exact same i hi _ (inPage_of_inNode ⟨Nat.le_add_right _ _, Nat.add_lt_add_left hk _⟩)

namespace Threaded

theorem congr (h : Threaded array mem lists L)
    (same : ∀ p ∈ freePages L, ∀ x, array.InPage p x → mem' x = mem x) :
    Threaded array mem' lists L := fun idx hidx =>
  ⟨(h idx hidx).1, linked_congr_pages (h idx hidx).2 fun i hi => same i
    (mem_freePages.mpr ⟨idx, hidx, i, hi, le_rfl, Nat.le_add_right _ _⟩)⟩

/-- The head of a list is unlinked. -/
theorem pop (h : Threaded array mem lists L) (nodup : (freePages L).Nodup)
    (hbase : 0 < array.base) (hidx : idx < BACKEND_MAX_PAGE) (hL : L idx = i :: rest) :
    ∃ mem', removeCurrent mem (array.pageAddr i) = some (mem', (rest.map array.pageAddr).head?) ∧
      Threaded array mem' (Function.update lists idx (rest.map array.pageAddr).head?)
        (Function.update L idx rest) ∧
      ∀ x, (∀ p ∈ freePages L, ¬array.InPage p x) → mem' x = mem x := by
  have hlinked := (h idx hidx).2
  have hnd := nodup_list nodup hidx
  rw [hL] at hlinked hnd
  have pos : ∀ x ∈ rest.map array.pageAddr, 0 < x := fun x hx => by
    obtain ⟨j, -, rfl⟩ := List.mem_map.mp hx
    exact Nat.add_pos_left hbase _
  have free : ∀ {j k}, k < BACKEND_MAX_PAGE → j ∈ L k → j ∈ freePages L := fun hk hj =>
    mem_freePages.mpr ⟨_, hk, _, hj, le_rfl, Nat.le_add_right _ _⟩
  obtain ⟨mem', hcall, hrest, hmem⟩ :=
    removeCurrent_head hlinked pos (pairwise_nodes (List.nodup_cons.mp hnd).2 array)
  have frame : ∀ x, (∀ j ∈ rest.head?, ¬array.InPage j x) → mem' x = mem x := by
    refine fun x hx => hmem x fun b hb => ?_
    rw [List.head?_map] at hb
    obtain ⟨j, hj, rfl⟩ := Option.map_eq_some_iff.mp hb
    exact fun hin => hx j hj (inPage_of_inNode hin)
  refine ⟨mem', hcall, fun j hj => ?_, fun x hx => frame x fun j hj => hx j (free hidx ?_)⟩
  · obtain rfl | hne := eq_or_ne j idx
    · simp only [Function.update_self]
      exact ⟨trivial, hrest⟩
    · simp only [Function.update_of_ne hne]
      refine ⟨(h j hj).1, linked_congr_pages (h j hj).2 fun a ha x hx => frame x fun b hb hb' => ?_⟩
      obtain rfl := ArrayNode.inPage_unique hx hb'
      have hb : a ∈ L idx := hL ▸ List.mem_cons_of_mem i (List.mem_of_mem_head? hb)
      exact hne (eq_of_page nodup hj hidx ha hb le_rfl (by omega) le_rfl (by omega)).2
  · exact hL ▸ List.mem_cons_of_mem i (List.mem_of_mem_head? hj)

/-- A new node becomes the head of a list. -/
theorem push (h : Threaded array mem lists L)
    (nodup : (freePages (Function.update L idx (i :: L idx))).Nodup) (hbase : 0 < array.base)
    (hidx : idx < BACKEND_MAX_PAGE) :
    ∃ mem', pushLocked (writeNew mem (array.pageAddr i)) (lists idx) (array.pageAddr i) =
        some mem' ∧
      Threaded array mem' (Function.update lists idx (some (array.pageAddr i)))
        (Function.update L idx (i :: L idx)) ∧
      ∀ x, (∀ p ∈ freePages (Function.update L idx (i :: L idx)), ¬array.InPage p x) →
        mem' x = mem x := by
  have hnd := nodup_list nodup hidx
  rw [Function.update_self] at hnd
  have hi : ∀ {a}, a ∈ i :: L idx → a ∈ Function.update L idx (i :: L idx) idx := fun ha => by
    rwa [Function.update_self]
  obtain ⟨mem', hcall, hlinked, hmem⟩ := pushLocked_head (a := array.pageAddr i) (h idx hidx).2
    (Nat.add_pos_left hbase _) (pairwise_nodes hnd array)
  have frame : ∀ x, (∀ j ∈ i :: L idx, ¬array.InPage j x) → mem' x = mem x := by
    refine fun x hx => hmem x (fun hin => hx i List.mem_cons_self (inPage_of_inNode hin))
      fun b hb hin => ?_
    rw [List.head?_map] at hb
    obtain ⟨j, hj, rfl⟩ := Option.map_eq_some_iff.mp hb
    exact hx j (List.mem_cons_of_mem i (List.mem_of_mem_head? hj)) (inPage_of_inNode hin)
  rw [(h idx hidx).1]
  refine ⟨mem', hcall, fun j hj => ?_, fun x hx => frame x fun j hj => hx j ?_⟩
  · obtain rfl | hne := eq_or_ne j idx
    · simp only [Function.update_self]
      exact ⟨rfl, hlinked⟩
    · simp only [Function.update_of_ne hne]
      refine ⟨(h j hj).1, linked_congr_pages (h j hj).2 fun a ha x hx => frame x fun b hb hb' => ?_⟩
      obtain rfl := ArrayNode.inPage_unique hx hb'
      have ha' : a ∈ Function.update L idx (i :: L idx) j := by
        rwa [Function.update_of_ne hne]
      exact hne (eq_of_page nodup hj hidx ha' (hi hb) le_rfl (by omega) le_rfl (by omega)).2
  · exact mem_freePages.mpr ⟨idx, hidx, j, hi hj, le_rfl, Nat.le_add_right _ _⟩

/-- The heads of the lists determine the free runs. -/
theorem unique {L' : Nat → List Nat} (h : Threaded array mem lists L)
    (h' : Threaded array mem lists L') : freePages L = freePages L' := by
  have hL : ∀ idx ∈ listIndices, listSpans idx (L idx) = listSpans idx (L' idx) := fun idx hidx => by
    have hidx := mem_listIndices.mp hidx
    obtain ⟨hhead, hlinked⟩ := h idx hidx
    obtain ⟨hhead', hlinked'⟩ := h' idx hidx
    rw [List.map_injective_iff.mpr array.pageAddr_injective
      (hlinked.unique hlinked' (hhead.symm.trans hhead'))]
  rw [freePages, freePages, freeSpans, freeSpans, Finset.sum_congr rfl hL]

end Threaded

end Threaded

end UniAlloc.FixedHeap
