import UniAlloc.FreeList.Basic
import UniAlloc.Ledger.Basic
import UniAlloc.Linked.Doubly
import Mathlib.Order.Interval.Multiset

/-!
# What the free lists represent

`L idx` lists the nodes of list `idx` from its head. The representation has three
independent parts: the nodes are threaded through memory, the tree is tagged at
both ends of every free run, and the runs do not overlap. Each list operation
gets one rule; merging never happens, because `remove_spec_one` compares the
successor of a node with the node itself.
-/

namespace UniAlloc.FreeList

open Radix DoubleLinkedList

/-- A run of pages. -/
structure Block where
  ptr : Nat
  num : Nat
  deriving DecidableEq

namespace Block

/-- The page numbers of a run. -/
def pages (b : Block) : Multiset Nat := Multiset.Ico (b.ptr / PG_SIZE) (b.ptr / PG_SIZE + b.num)

@[simp] theorem mem_pages {b : Block} {p : Nat} :
    p ∈ b.pages ↔ b.ptr / PG_SIZE ≤ p ∧ p < b.ptr / PG_SIZE + b.num := by
  simp [pages]

/-- A run the backend can handle: whole pages of user space, at most as many as
the longest list holds. -/
structure Wf (b : Block) : Prop where
  aligned : b.ptr % PG_SIZE = 0
  pos : 0 < b.ptr
  num_pos : 0 < b.num
  num_le : b.num ≤ BACKEND_MAX_PAGE
  bound : b.ptr / PG_SIZE + b.num ≤ 2 ^ 35

theorem Wf.first_mem {b : Block} (h : b.Wf) : b.ptr / PG_SIZE ∈ b.pages := by
  have := h.num_pos
  simp [this]

theorem Wf.pages_ne_zero {b : Block} (h : b.Wf) : b.pages ≠ 0 := fun h0 => by
  have := h.first_mem
  simp [h0] at this

/-- The page of the last `num - 1` pages' offset, as the source computes it. -/
theorem last_page {a idx : Nat} : (a + idx * PG_SIZE) / PG_SIZE = a / PG_SIZE + idx := by
  simp only [PG_SIZE]
  omega

/-- Cutting a run in two. -/
theorem pages_split (a m n : Nat) :
    (⟨a, m + n⟩ : Block).pages = (⟨a, m⟩ : Block).pages + (⟨a + m * PG_SIZE, n⟩ : Block).pages := by
  simp only [pages, last_page]
  rw [Multiset.Ico_add_Ico_eq_Ico (by omega) (by omega)]
  congr 1
  omega

theorem Wf.split {a m n : Nat} (h : (⟨a, m + n⟩ : Block).Wf) (hm : 0 < m) (hn : 0 < n) :
    (⟨a, m⟩ : Block).Wf ∧ (⟨a + m * PG_SIZE, n⟩ : Block).Wf := by
  obtain ⟨aligned, pos, num_pos, num_le, bound⟩ := h
  simp only [PG_SIZE] at aligned pos num_le bound
  refine ⟨⟨aligned, pos, hm, (Nat.le_add_right m n).trans num_le, ?_⟩,
    ⟨?_, ?_, hn, (Nat.le_add_left n m).trans num_le, ?_⟩⟩ <;> simp only [PG_SIZE] <;> omega

end Block

/-- The runs of one list. -/
def listBlocks (idx : Nat) (nodes : List Nat) : Multiset Block :=
  (nodes : Multiset Nat).map fun a => ⟨a, idx + 1⟩

def listIndices : Finset Nat := Finset.range BACKEND_MAX_PAGE

theorem mem_listIndices {idx : Nat} : idx ∈ listIndices ↔ idx < BACKEND_MAX_PAGE :=
  Finset.mem_range

attribute [irreducible] listIndices

/-- The runs of all lists. -/
def freeBlocks (L : Nat → List Nat) : Multiset Block :=
  ∑ idx ∈ listIndices, listBlocks idx (L idx)

variable {L : Nat → List Nat} {idx j a b : Nat} {rest : List Nat}

theorem mem_freeBlocks {b : Block} :
    b ∈ freeBlocks L ↔ ∃ idx < BACKEND_MAX_PAGE, ∃ a ∈ L idx, b = ⟨a, idx + 1⟩ := by
  simp [freeBlocks, listBlocks, Multiset.mem_sum, mem_listIndices, eq_comm]

theorem listBlocks_le (hidx : idx < BACKEND_MAX_PAGE) : listBlocks idx (L idx) ≤ freeBlocks L :=
  Finset.single_le_sum (f := fun idx => listBlocks idx (L idx)) (fun _ _ => Multiset.zero_le _)
    (mem_listIndices.mpr hidx)

theorem freeBlocks_pop (hidx : idx < BACKEND_MAX_PAGE) (hL : L idx = a :: rest) :
    freeBlocks L = ⟨a, idx + 1⟩ ::ₘ freeBlocks (Function.update L idx rest) := by
  have h := Ledger.sum_update listIndices listBlocks L
    (mem_listIndices.mpr hidx) rest
  have hcons : listBlocks idx (L idx) = ⟨a, idx + 1⟩ ::ₘ listBlocks idx rest := by
    simp [hL, listBlocks]
  rw [hcons, Multiset.add_cons, ← Multiset.cons_add] at h
  exact (add_right_cancel h).symm

theorem freeBlocks_push (hidx : idx < BACKEND_MAX_PAGE) (a : Nat) :
    freeBlocks (Function.update L idx (a :: L idx)) = ⟨a, idx + 1⟩ ::ₘ freeBlocks L := by
  have h := freeBlocks_pop (L := Function.update L idx (a :: L idx)) hidx
    (Function.update_self idx _ L)
  rwa [Function.update_idem, Function.update_eq_self] at h

/-- The pages of the free runs. -/
def freePages (L : Nat → List Nat) : Multiset Nat := (freeBlocks L).bind Block.pages

theorem mem_freePages {p : Nat} :
    p ∈ freePages L ↔ ∃ idx < BACKEND_MAX_PAGE, ∃ a ∈ L idx, p ∈ (⟨a, idx + 1⟩ : Block).pages := by
  constructor
  · intro h
    obtain ⟨b, hb, hp⟩ := Multiset.mem_bind.mp h
    obtain ⟨idx, hidx, a, ha, rfl⟩ := mem_freeBlocks.mp hb
    exact ⟨idx, hidx, a, ha, hp⟩
  · rintro ⟨idx, hidx, a, ha, hp⟩
    exact Multiset.mem_bind.mpr ⟨_, mem_freeBlocks.mpr ⟨idx, hidx, a, ha, rfl⟩, hp⟩

/-- The free runs are well formed and do not overlap. -/
structure Apart (L : Nat → List Nat) : Prop where
  wf : ∀ b ∈ freeBlocks L, b.Wf
  nodup : (freePages L).Nodup

namespace Apart

theorem node_wf (h : Apart L) (hidx : idx < BACKEND_MAX_PAGE) (ha : a ∈ L idx) :
    (⟨a, idx + 1⟩ : Block).Wf :=
  h.wf _ (mem_freeBlocks.mpr ⟨idx, hidx, a, ha, rfl⟩)

/-- A page of two free runs identifies them. -/
theorem eq_of_page (h : Apart L) (hidx : idx < BACKEND_MAX_PAGE) (hj : j < BACKEND_MAX_PAGE)
    (ha : a ∈ L idx) (hb : b ∈ L j) {p : Nat} (hpa : p ∈ (⟨a, idx + 1⟩ : Block).pages)
    (hpb : p ∈ (⟨b, j + 1⟩ : Block).pages) : a = b ∧ idx = j := by
  have heq := Ledger.eq_of_shared h.nodup (mem_freeBlocks.mpr ⟨idx, hidx, a, ha, rfl⟩)
    (mem_freeBlocks.mpr ⟨j, hj, b, hb, rfl⟩) hpa hpb
  simpa using heq

theorem nodup_list (h : Apart L) (hidx : idx < BACKEND_MAX_PAGE) : (L idx).Nodup := by
  have hblocks : (freeBlocks L).Nodup :=
    Ledger.nodup_of_nodup_bind h.nodup fun b hb => (h.wf b hb).pages_ne_zero
  have hlist := Multiset.nodup_of_le (listBlocks_le hidx) hblocks
  exact Multiset.coe_nodup.mp (Multiset.Nodup.of_map _ hlist)

/-- Different nodes lie on different pages. -/
theorem pageApart (h : Apart L) (hidx : idx < BACKEND_MAX_PAGE) (hj : j < BACKEND_MAX_PAGE)
    (ha : a ∈ L idx) (hb : b ∈ L j) (hne : a ≠ b ∨ idx ≠ j) : PageApart a b := by
  refine ⟨(h.node_wf hidx ha).aligned, (h.node_wf hj hb).aligned, ?_⟩
  rintro rfl
  obtain ⟨-, rfl⟩ := h.eq_of_page hidx hj ha hb (h.node_wf hidx ha).first_mem
    (h.node_wf hj hb).first_mem
  exact hne.elim (fun h => h rfl) (fun h => h rfl)

theorem pop (h : Apart L) (hidx : idx < BACKEND_MAX_PAGE) (hL : L idx = a :: rest) :
    Apart (Function.update L idx rest) := by
  have hpop := freeBlocks_pop hidx hL
  refine ⟨fun b hb => h.wf b (hpop ▸ Multiset.mem_cons_of_mem hb), ?_⟩
  have hnodup := h.nodup
  rw [freePages, hpop, Multiset.cons_bind] at hnodup
  exact (Multiset.nodup_add.mp hnodup).2.1

theorem push (h : Apart L) (hidx : idx < BACKEND_MAX_PAGE) (wf : (⟨a, idx + 1⟩ : Block).Wf)
    (fresh : ∀ p ∈ (⟨a, idx + 1⟩ : Block).pages, p ∉ freePages L) :
    Apart (Function.update L idx (a :: L idx)) := by
  have hpush := freeBlocks_push (L := L) hidx a
  refine ⟨fun b hb => ?_, ?_⟩
  · rw [hpush] at hb
    rcases Multiset.mem_cons.mp hb with rfl | hb
    · exact wf
    · exact h.wf b hb
  · rw [freePages, hpush, Multiset.cons_bind]
    exact Multiset.nodup_add.mpr
      ⟨Multiset.nodup_Ico, h.nodup, Multiset.disjoint_left.mpr fun {p} => fresh p⟩

end Apart

/-- Every list is threaded through its nodes, starting at its head. -/
def Threaded (mem : Mem) (lists : Nat → Option Nat) (L : Nat → List Nat) : Prop :=
  ∀ idx < BACKEND_MAX_PAGE, lists idx = (L idx).head? ∧
    Linked (readPrev mem) (readNext mem) none (L idx)

variable {mem mem' : Mem} {lists : Nat → Option Nat}

namespace Threaded

/-- Only the words of free pages matter. -/
theorem congr (h : Threaded mem lists L) (apart : Apart L)
    (same : ∀ x, x / PG_SIZE ∈ freePages L → mem' x = mem x) : Threaded mem' lists L := by
  intro idx hidx
  obtain ⟨hhead, hlinked⟩ := h idx hidx
  have words : ∀ x ∈ L idx, ∀ k < 32, mem' (x + k) = mem (x + k) := by
    intro x hx k hk
    have wf := apart.node_wf hidx hx
    refine same _ (mem_freePages.mpr ⟨idx, hidx, x, hx, ?_⟩)
    have haligned := wf.aligned
    simp only [PG_SIZE, Block.mem_pages] at haligned ⊢
    omega
  refine ⟨hhead, hlinked.congr (fun x hx => ?_) (fun x hx => ?_)⟩
  · exact Mem.readOption_congr mem (words x hx 0 (by omega)) (words x hx 8 (by omega))
  · exact Mem.readOption_congr mem (words x hx 16 (by omega)) (words x hx 24 (by omega))

/-- Unlinking the head of a list. -/
theorem pop (h : Threaded mem lists L) (apart : Apart L) (hidx : idx < BACKEND_MAX_PAGE)
    (hL : L idx = a :: rest) :
    ∃ mem', removeCurrent mem a = some (mem', rest.head?) ∧
      Threaded mem' (Function.update lists idx rest.head?) (Function.update L idx rest) ∧
      ∀ x, x / PG_SIZE ∉ freePages L → mem' x = mem x := by
  obtain ⟨-, hprev, hnext, hrest⟩ := hL ▸ h idx hidx
  cases rest with
  | nil =>
      refine ⟨mem, by simp [removeCurrent, hprev, hnext], fun j hj => ?_, fun _ _ => rfl⟩
      by_cases hji : j = idx
      · subst hji
        simp
      · simpa [hji] using h j hj
  | cons b tail =>
      have hb : b ∈ L idx := by simp [hL]
      have wf := apart.node_wf hidx hb
      refine ⟨writePrev mem b none, ?_, fun j hj => ?_, fun x hx => ?_⟩
      · simp [removeCurrent, hprev, hnext, getRef_of_pos wf.pos]
      · have hother : ∀ x ∈ L j, x ≠ b ∨ j ≠ idx → PageApart b x := fun x hx hne =>
          apart.pageApart hidx hj hb hx (hne.imp Ne.symm Ne.symm)
        by_cases hji : j = idx
        · subst hji
          have hmem : ∀ x ∈ b :: tail, x ∈ L j := fun x hx => hL ▸ List.mem_cons_of_mem a hx
          have hnd : b ∉ tail := by
            have := apart.nodup_list hj
            rw [hL] at this
            exact (List.nodup_cons.mp (List.nodup_cons.mp this).2).1
          simp only [Function.update_self, true_and]
          refine hrest.redirect (fun x hx => ?_) (fun x hx => ?_) (fun x hx => ?_)
          · obtain rfl : b = x := by simpa using hx
            exact readPrev_writePrev mem none
          · exact readPrev_writePrev_of_ne mem (hother x (hmem x (List.mem_cons_of_mem b hx))
              (Or.inl (ne_of_mem_of_not_mem hx hnd)))
          · by_cases hxb : x = b
            · subst hxb
              exact readNext_writePrev mem none
            · exact readNext_writePrev_of_ne mem (hother x (hmem x hx) (Or.inl hxb))
        · obtain ⟨hhead, hlinked⟩ := h j hj
          simp only [Function.update_of_ne hji]
          exact ⟨hhead, hlinked.congr
            (fun x hx => readPrev_writePrev_of_ne mem (hother x hx (Or.inr hji)))
            (fun x hx => readNext_writePrev_of_ne mem (hother x hx (Or.inr hji)))⟩
      · refine writePrev_of_page mem wf.aligned fun hpage => hx ?_
        exact mem_freePages.mpr ⟨idx, hidx, b, hb, hpage ▸ wf.first_mem⟩

/-- Threading a new node in front of a list, as `insert_one` does. -/
theorem push (h : Threaded mem lists L) (hidx : idx < BACKEND_MAX_PAGE)
    (apart : Apart (Function.update L idx (a :: L idx))) :
    ∃ mem', pushLocked (writeNew mem a) (lists idx) a = some mem' ∧
      Threaded mem' (Function.update lists idx (some a)) (Function.update L idx (a :: L idx)) ∧
      ∀ x, x / PG_SIZE ∉ freePages (Function.update L idx (a :: L idx)) → mem' x = mem x := by
  have hself : ∀ {x}, x ∈ a :: L idx → x ∈ Function.update L idx (a :: L idx) idx := by simp
  have hfirst := hself List.mem_cons_self
  have wf := apart.node_wf hidx hfirst
  have hnd := apart.nodup_list hidx
  rw [Function.update_self] at hnd
  have hother : ∀ j < BACKEND_MAX_PAGE, j ≠ idx → ∀ x ∈ L j, ∀ y ∈ a :: L idx, PageApart y x := by
    intro j hj hji x hx y hy
    exact apart.pageApart hidx hj (hself hy) (by simpa [hji] using hx) (Or.inr (Ne.symm hji))
  have hpage : ∀ y ∈ a :: L idx, ∀ x, x / PG_SIZE ∉ freePages (Function.update L idx (a :: L idx)) →
      x / PG_SIZE ≠ y / PG_SIZE := by
    intro y hy x hx hxy
    exact hx (mem_freePages.mpr ⟨idx, hidx, y, hself hy,
      hxy ▸ (apart.node_wf hidx (hself hy)).first_mem⟩)
  obtain ⟨hhead, hlinked⟩ := h idx hidx
  cases hL : L idx with
  | nil =>
      rw [hL] at hhead hother hpage
      refine ⟨writeNew mem a, by rw [hhead]; rfl, fun j hj => ?_, fun x hx => ?_⟩
      · by_cases hji : j = idx
        · subst hji
          simp [Linked, writeNew]
        · obtain ⟨hheadj, hlinkedj⟩ := h j hj
          simp only [Function.update_of_ne hji]
          refine ⟨hheadj, hlinkedj.congr (fun x hx => ?_) (fun x hx => ?_)⟩
          · have hne := hother j hj hji x hx a List.mem_cons_self
            rw [writeNew, readPrev_writeNext_of_ne _ hne, readPrev_writePrev_of_ne _ hne]
          · have hne := hother j hj hji x hx a List.mem_cons_self
            rw [writeNew, readNext_writeNext_of_ne _ hne, readNext_writePrev_of_ne _ hne]
      · have hne := hpage a List.mem_cons_self x hx
        rw [writeNew, writeNext_of_page _ wf.aligned hne, writePrev_of_page _ wf.aligned hne]
  | cons r tail =>
      rw [hL] at hhead hother hpage hself hnd hlinked
      have hr : r ∈ a :: r :: tail := by simp
      have hra : PageApart r a := apart.pageApart hidx hidx (by rw [hL]; exact hself hr) hfirst
        (Or.inl fun h => (List.nodup_cons.mp hnd).1 (h ▸ List.mem_cons_self))
      have har : PageApart a r := ⟨hra.2.1, hra.1, hra.2.2.symm⟩
      refine ⟨writePrev (writeNext (writePrev (writeNew mem a) r (some a)) a (some r)) a none,
        ?_, fun j hj => ?_, fun x hx => ?_⟩
      · rw [hhead]
        simp [pushLocked, pushBeforeHead, getRef_of_pos wf.pos]
      · have houtside : ∀ x, PageApart a x → PageApart r x →
            readPrev (writePrev (writeNext (writePrev (writeNew mem a) r (some a)) a (some r)) a
              none) x = readPrev mem x ∧
            readNext (writePrev (writeNext (writePrev (writeNew mem a) r (some a)) a (some r)) a
              none) x = readNext mem x := by
          intro x hax hrx
          simp only [writeNew, readPrev_writePrev_of_ne _ hax, readPrev_writePrev_of_ne _ hrx,
            readPrev_writeNext_of_ne _ hax, readNext_writePrev_of_ne _ hax,
            readNext_writePrev_of_ne _ hrx, readNext_writeNext_of_ne _ hax, and_self]
        by_cases hji : j = idx
        · subst hji
          simp only [Function.update_self, List.head?_cons, true_and]
          refine ⟨readPrev_writePrev _ none, by simp, ?_⟩
          refine hlinked.redirect (fun x hx => ?_) (fun x hx => ?_) (fun x hx => ?_)
          · obtain rfl : r = x := by simpa using hx
            rw [readPrev_writePrev_of_ne _ har, readPrev_writeNext_of_ne _ har, readPrev_writePrev]
          · have hxt : x ∈ a :: r :: tail := by simp [show x ∈ tail from hx]
            have hnd' := List.nodup_cons.mp hnd
            refine (houtside x ?_ ?_).1
            · exact apart.pageApart hj hj hfirst (by rw [hL]; exact hself hxt)
                (Or.inl fun h => hnd'.1 (h ▸ List.mem_cons_of_mem r hx))
            · exact apart.pageApart hj hj (by rw [hL]; exact hself hr) (by rw [hL]; exact hself hxt)
                (Or.inl fun h => (List.nodup_cons.mp hnd'.2).1 (h ▸ hx))
          · by_cases hxr : x = r
            · subst hxr
              simp only [writeNew, readNext_writePrev_of_ne _ har, readNext_writeNext_of_ne _ har,
                readNext_writePrev]
            · have hxt : x ∈ a :: r :: tail := List.mem_cons_of_mem a hx
              refine (houtside x ?_ ?_).2
              · exact apart.pageApart hj hj hfirst (by rw [hL]; exact hself hxt)
                  (Or.inl fun h => (List.nodup_cons.mp hnd).1 (h ▸ hx))
              · exact apart.pageApart hj hj (by rw [hL]; exact hself hr)
                  (by rw [hL]; exact hself hxt) (Or.inl (Ne.symm hxr))
        · obtain ⟨hheadj, hlinkedj⟩ := h j hj
          simp only [Function.update_of_ne hji]
          have hx := fun x hx => houtside x (hother j hj hji x hx a List.mem_cons_self)
            (hother j hj hji x hx r hr)
          exact ⟨hheadj, hlinkedj.congr (fun x h => (hx x h).1) (fun x h => (hx x h).2)⟩
      · have hxa := hpage a List.mem_cons_self x hx
        have hxr := hpage r hr x hx
        rw [writePrev_of_page _ wf.aligned hxa, writeNext_of_page _ wf.aligned hxa,
          writePrev_of_page _ hra.1 hxr, writeNew, writeNext_of_page _ wf.aligned hxa,
          writePrev_of_page _ wf.aligned hxa]

end Threaded

/-- Both ends of every free run are tagged, and no other page is. -/
structure Tagged (tree : RadixTree) (L : Nat → List Nat) : Prop where
  ends : ∀ idx < BACKEND_MAX_PAGE, ∀ a ∈ L idx,
    tree.entry (a / PG_SIZE) = tag idx ∧ tree.entry (a / PG_SIZE + idx) = tag idx
  others : ∀ p, tree.entry p < 0 → ∃ idx < BACKEND_MAX_PAGE, ∃ a ∈ L idx,
    p = a / PG_SIZE ∨ p = a / PG_SIZE + idx

variable {tree tree' : RadixTree}

theorem Block.ends_mem {num p : Nat} (h : p = a / PG_SIZE ∨ p = a / PG_SIZE + num) :
    p ∈ (⟨a, num + 1⟩ : Block).pages := by
  rw [Block.mem_pages]
  rcases h with rfl | rfl <;> simp only <;> omega

theorem Block.Wf.addr_lt {num : Nat} (wf : (⟨a, num + 1⟩ : Block).Wf) :
    a < 2 ^ 48 ∧ a + num * PG_SIZE < 2 ^ 48 := by
  have hbound := wf.bound
  have hnum := wf.num_le
  simp only [PG_SIZE, BACKEND_MAX_PAGE] at hbound hnum ⊢
  omega

namespace Tagged

/-- The tags tell the page a free run from any other page of a free run. -/
theorem mem_of_neg (h : Tagged tree L) {p : Nat} (hp : tree.entry p < 0) :
    p ∈ freePages L := by
  obtain ⟨idx, hidx, a, ha, hpa⟩ := h.others p hp
  exact mem_freePages.mpr ⟨idx, hidx, a, ha, Block.ends_mem hpa⟩

/-- Only the entries of free pages matter, as long as the others are not tags. -/
theorem congr (h : Tagged tree L) (same : ∀ p ∈ freePages L, tree'.entry p = tree.entry p)
    (nonneg : ∀ p ∉ freePages L, 0 ≤ tree'.entry p) : Tagged tree' L := by
  refine ⟨fun idx hidx a ha => ?_, fun p hp => ?_⟩
  · have hmem : ∀ {p}, p = a / PG_SIZE ∨ p = a / PG_SIZE + idx → p ∈ freePages L := fun hp =>
      mem_freePages.mpr ⟨idx, hidx, a, ha, Block.ends_mem hp⟩
    rw [same _ (hmem (Or.inl rfl)), same _ (hmem (Or.inr rfl))]
    exact h.ends idx hidx a ha
  · by_cases hfree : p ∈ freePages L
    · exact h.others p (same p hfree ▸ hp)
    · exact absurd hp (nonneg p hfree).not_gt

/-- Clearing the tags of the head of a list. -/
theorem pop (h : Tagged tree L) (apart : Apart L) (hidx : idx < BACKEND_MAX_PAGE)
    (hL : L idx = a :: rest) :
    ∃ tree₁ tree₂, TreeNode.remove tree (pageKey a) 1 = some tree₁ ∧
      TreeNode.remove tree₁ (pageKey (a + idx * PG_SIZE)) 1 = some tree₂ ∧
      Tagged tree₂ (Function.update L idx rest) ∧
      ∀ p, tree₂.entry p =
        if p = a / PG_SIZE ∨ p = a / PG_SIZE + idx then 0 else tree.entry p := by
  have ha : a ∈ L idx := by simp [hL]
  have wf := apart.node_wf hidx ha
  obtain ⟨hlt, hlt'⟩ := wf.addr_lt
  obtain ⟨tree₁, hrem₁, hent₁⟩ := tree.remove_pageKey (n := 1) hlt (by omega)
  obtain ⟨tree₂, hrem₂, hent₂⟩ := tree₁.remove_pageKey (n := 1) hlt' (by omega)
  have hent : ∀ p, tree₂.entry p =
      if p = a / PG_SIZE ∨ p = a / PG_SIZE + idx then 0 else tree.entry p := by
    intro p
    rw [hent₂, hent₁, show (4096 : Nat) = PG_SIZE from rfl, Block.last_page]
    split_ifs <;> omega
  have hpop := apart.pop hidx hL
  have hmem : ∀ {j x}, x ∈ Function.update L idx rest j → x ∈ L j := by
    intro j x hx
    by_cases hj : j = idx
    · subst hj
      rw [hL]
      exact List.mem_cons_of_mem a (by simpa using hx)
    · simpa [hj] using hx
  refine ⟨tree₁, tree₂, hrem₁, hrem₂, ⟨fun j hj x hx => ?_, fun p hp => ?_⟩, hent⟩
  · have wfx := apart.node_wf hj (hmem hx)
    have hout : ∀ p, (p = x / PG_SIZE ∨ p = x / PG_SIZE + j) →
        ¬(p = a / PG_SIZE ∨ p = a / PG_SIZE + idx) := by
      intro p hpx hpa
      obtain ⟨rfl, rfl⟩ := apart.eq_of_page hj hidx (hmem hx) ha (Block.ends_mem hpx)
        (Block.ends_mem hpa)
      have hnd := apart.nodup_list hidx
      rw [hL] at hnd
      exact (List.nodup_cons.mp hnd).1 (by simpa using hx)
    rw [hent, hent, if_neg (hout _ (Or.inl rfl)), if_neg (hout _ (Or.inr rfl))]
    exact h.ends j hj x (hmem hx)
  · rw [hent] at hp
    split_ifs at hp with hpa
    · omega
    · obtain ⟨j, hj, x, hx, hpx⟩ := h.others p hp
      refine ⟨j, hj, x, ?_, hpx⟩
      by_cases hji : j = idx
      · subst hji
        rw [hL] at hx
        rcases List.mem_cons.mp hx with rfl | hx
        · exact absurd hpx hpa
        · simpa using hx
      · simpa [hji] using hx

/-- Tagging a new run. -/
theorem push (h : Tagged tree L) (hidx : idx < BACKEND_MAX_PAGE)
    (apart : Apart (Function.update L idx (a :: L idx))) :
    ∃ tree₁ tree₂, TreeNode.insert tree (pageKey a) (tag idx) 1 = some tree₁ ∧
      TreeNode.insert tree₁ (pageKey (a + idx * PG_SIZE)) (tag idx) 1 = some tree₂ ∧
      Tagged tree₂ (Function.update L idx (a :: L idx)) ∧
      ∀ p, tree₂.entry p =
        if p = a / PG_SIZE ∨ p = a / PG_SIZE + idx then tag idx else tree.entry p := by
  have ha : a ∈ Function.update L idx (a :: L idx) idx := by simp
  have wf := apart.node_wf hidx ha
  obtain ⟨hlt, hlt'⟩ := wf.addr_lt
  obtain ⟨tree₁, hins₁, hent₁⟩ := tree.insert_pageKey (n := 1) (tag idx) hlt (by omega)
  obtain ⟨tree₂, hins₂, hent₂⟩ := tree₁.insert_pageKey (n := 1) (tag idx) hlt' (by omega)
  have hent : ∀ p, tree₂.entry p =
      if p = a / PG_SIZE ∨ p = a / PG_SIZE + idx then tag idx else tree.entry p := by
    intro p
    rw [hent₂, hent₁, show (4096 : Nat) = PG_SIZE from rfl, Block.last_page]
    split_ifs <;> omega
  have hmem : ∀ {j x}, x ∈ L j → x ∈ Function.update L idx (a :: L idx) j := by
    intro j x hx
    by_cases hj : j = idx
    · subst hj
      simp [hx]
    · simpa [hj] using hx
  refine ⟨tree₁, tree₂, hins₁, hins₂, ⟨fun j hj x hx => ?_, fun p hp => ?_⟩, hent⟩
  · by_cases hnew : x = a ∧ j = idx
    · obtain ⟨rfl, rfl⟩ := hnew
      simp [hent]
    · have hxL : x ∈ L j := by
        by_cases hji : j = idx
        · subst hji
          simp only [Function.update_self] at hx
          exact (List.mem_cons.mp hx).resolve_left fun h => hnew ⟨h, rfl⟩
        · simpa [hji] using hx
      have wfx := apart.node_wf hj hx
      have hout : ∀ p, (p = x / PG_SIZE ∨ p = x / PG_SIZE + j) →
          ¬(p = a / PG_SIZE ∨ p = a / PG_SIZE + idx) := fun p hpx hpa =>
        hnew (apart.eq_of_page hj hidx hx ha (Block.ends_mem hpx) (Block.ends_mem hpa))
      rw [hent, hent, if_neg (hout _ (Or.inl rfl)), if_neg (hout _ (Or.inr rfl))]
      exact h.ends j hj x hxL
  · by_cases hpa : p = a / PG_SIZE ∨ p = a / PG_SIZE + idx
    · exact ⟨idx, hidx, a, ha, hpa⟩
    · rw [hent, if_neg hpa] at hp
      obtain ⟨j, hj, x, hx, hpx⟩ := h.others p hp
      exact ⟨j, hj, x, hmem hx, hpx⟩

end Tagged

/-- `L` is what the heap's lists contain. -/
structure Represents (h : Heap) (L : Nat → List Nat) : Prop where
  threaded : Threaded h.mem h.lists L
  tagged : Tagged h.tree L
  apart : Apart L

/-- The two heaps agree outside the given pages. -/
structure SameOutside (pages : Multiset Nat) (h h' : Heap) : Prop where
  mem : ∀ x, x / PG_SIZE ∉ pages → h'.mem x = h.mem x
  entry : ∀ p ∉ pages, h'.tree.entry p = h.tree.entry p
  bump : h'.bump = h.bump

variable {h h' : Heap}

namespace Represents

/-- A heap that agrees on the free pages and has no tags elsewhere. -/
theorem congr (rep : Represents h L) (lists : h'.lists = h.lists)
    (mem : ∀ x, x / PG_SIZE ∈ freePages L → h'.mem x = h.mem x)
    (entry : ∀ p ∈ freePages L, h'.tree.entry p = h.tree.entry p)
    (nonneg : ∀ p ∉ freePages L, 0 ≤ h'.tree.entry p) : Represents h' L :=
  ⟨lists ▸ rep.threaded.congr rep.apart mem, rep.tagged.congr entry nonneg, rep.apart⟩

theorem nonneg (rep : Represents h L) {p : Nat} (hp : p ∉ freePages L) : 0 ≤ h.tree.entry p := by
  by_contra hneg
  exact hp (rep.tagged.mem_of_neg (not_le.mp hneg))

theorem removeOne_nil (rep : Represents h L) (hidx : idx < BACKEND_MAX_PAGE) (hL : L idx = []) :
    removeOne h idx = some (h, none) := by
  have hhead := (rep.threaded idx hidx).1
  rw [hL] at hhead
  rw [removeOne, if_neg hidx.not_ge, hhead]
  rfl

/-- `remove_one` takes the first run of the list and clears its tags. -/
theorem removeOne_cons (rep : Represents h L) (hidx : idx < BACKEND_MAX_PAGE)
    (hL : L idx = a :: rest) :
    ∃ h', removeOne h idx = some (h', some a) ∧ Represents h' (Function.update L idx rest) ∧
      SameOutside (freePages L) h h' ∧
      ∀ p, h'.tree.entry p =
        if p = a / PG_SIZE ∨ p = a / PG_SIZE + idx then 0 else h.tree.entry p := by
  have ha : a ∈ L idx := by simp [hL]
  have hhead := (rep.threaded idx hidx).1
  rw [hL, List.head?_cons] at hhead
  obtain ⟨mem, hrem, hthread, hmem⟩ := rep.threaded.pop rep.apart hidx hL
  obtain ⟨tree₁, tree₂, hrem₁, hrem₂, htag, hent⟩ := rep.tagged.pop rep.apart hidx hL
  refine ⟨{ h with mem, tree := tree₂, lists := Function.update h.lists idx rest.head? }, ?_,
    ⟨hthread, htag, rep.apart.pop hidx hL⟩, ⟨hmem, fun p hp => ?_, rfl⟩, hent⟩
  · rw [removeOne, if_neg hidx.not_ge, hhead]
    simp only [hrem₁, hrem₂, hrem, Option.bind_eq_bind, Option.bind_some]
  · exact (hent p).trans (if_neg fun hpa =>
      hp (mem_freePages.mpr ⟨idx, hidx, a, ha, Block.ends_mem hpa⟩))

/-- `remove_spec_one` never merges: at a run boundary the only node it can find is
the first page of a free run, whose successor is another node. -/
theorem removeSpecOne_eq (rep : Represents h L) (hidx : idx < BACKEND_MAX_PAGE) (ha : a < 2 ^ 48)
    (pos : 0 < a) (boundary : ∀ b ∈ freeBlocks L, a / PG_SIZE ∈ b.pages → b.ptr = a) :
    removeSpecOne h idx a = some (h, none) := by
  rw [removeSpecOne, if_neg hidx.not_ge, RadixTree.getMut_pageKey _ ha]
  simp only [Option.bind_eq_bind, Option.bind_some]
  split
  · next hneg =>
      obtain ⟨j, hj, b, hb, hab⟩ := rep.tagged.others (a / PG_SIZE) (by
        simp only [PG_SIZE]
        omega)
      obtain rfl : b = a := boundary _ (mem_freeBlocks.mpr ⟨j, hj, b, hb, rfl⟩)
        (Block.ends_mem hab)
      have hne := (rep.threaded j hj).2.next_ne_self (rep.apart.nodup_list hj) hb
      simp only [getRef_of_pos pos, Option.bind_some]
      split
      · next succ hsucc => exact if_neg fun heq => hne (hsucc.trans (congrArg some heq))
      · rfl
  · rfl

/-- `insert_one` puts a new run at the head of its list and tags it. -/
theorem insertNew_spec (rep : Represents h L) (hidx : idx < BACKEND_MAX_PAGE)
    (wf : (⟨a, idx + 1⟩ : Block).Wf)
    (fresh : ∀ p ∈ (⟨a, idx + 1⟩ : Block).pages, p ∉ freePages L) :
    ∃ h', insertNew h idx a = some h' ∧ Represents h' (Function.update L idx (a :: L idx)) ∧
      SameOutside (freePages (Function.update L idx (a :: L idx))) h h' ∧
      ∀ p, h'.tree.entry p =
        if p = a / PG_SIZE ∨ p = a / PG_SIZE + idx then tag idx else h.tree.entry p := by
  have apart := rep.apart.push hidx wf fresh
  obtain ⟨mem, hpush, hthread, hmem⟩ := rep.threaded.push hidx apart
  obtain ⟨tree₁, tree₂, hins₁, hins₂, htag, hent⟩ := rep.tagged.push hidx apart
  refine ⟨{ h with mem, tree := tree₂, lists := Function.update h.lists idx (some a) }, ?_,
    ⟨hthread, htag, apart⟩, ⟨hmem, fun p hp => ?_, rfl⟩, hent⟩
  · simp only [insertNew, getRef_of_pos wf.pos, insertOne, if_neg hidx.not_ge,
      Option.bind_eq_bind, Option.bind_some, hpush, hins₁, hins₂]
  · exact (hent p).trans (if_neg fun hpa =>
      hp (mem_freePages.mpr ⟨idx, hidx, a, by simp, Block.ends_mem hpa⟩))

end Represents

end UniAlloc.FreeList
