import UniAlloc.FixedHeap.Lists

/-!
# The operations on a fixed heap

Each list operation gets one rule: what becomes of the lists, and that it leaves the
rest of the heap as it is and accesses the page table only at pages of the heap.
-/

namespace UniAlloc.FixedHeap

open FreeList (PG_SIZE BumpAlloc tag flag tag_eq flag_tag)
open FreeList.DoubleLinkedList
open PageBump (wrappingSub)
open Radix (pageKey)
open Slab (PAGE_SIZE)

/-- Keys keep the addresses of the heap, and it has a page table. -/
structure Geometry (array : ArrayNode) (count : Nat) : Prop where
  base_pos : 0 < array.base
  bound : array.base + count * PAGE_SIZE < 2 ^ 48
  nodes : array.nodes ≠ 0

/-- `L` is what the lists of a heap of `count` pages contain. -/
structure Represents (h : Heap) (count : Nat) (L : Nat → List Nat) : Prop where
  geometry : Geometry h.array count
  threaded : Threaded h.array h.mem h.lists L
  tagged : Tagged (h.array.entry h.mem) count L
  nodup : (freePages L).Nodup
  inside : ∀ p ∈ freePages L, 0 < p ∧ p < count
  off : ∀ p ∈ freePages L, ∀ x, h.array.InPage p x → ¬h.array.InArray count x

/-- Only the given pages and their entries have changed. -/
structure Changed (pages : Multiset Nat) (count : Nat) (h h' : Heap) : Prop where
  array : h'.array = h.array
  bump : h'.bump = h.bump
  mem : ∀ x, ¬h.array.InArray count x → (∀ p ∈ pages, ¬h.array.InPage p x) → h'.mem x = h.mem x
  entry : ∀ p < count, p ∉ pages → h.array.entry h'.mem p = h.array.entry h.mem p

/-- The page table has only been accessed below `bound`. -/
def Logged (bound : Nat) (h h' : Heap) : Prop :=
  ∃ l, h'.accessed = l ++ h.accessed ∧ ∀ i ∈ l, i < bound

variable {h h' : Heap} {count idx i p n : Nat} {L : Nat → List Nat} {rest : List Nat} {v : Int}
  {pages pages' : Multiset Nat}

namespace Changed

theorem refl (pages : Multiset Nat) (count : Nat) (h : Heap) : Changed pages count h h :=
  ⟨rfl, rfl, fun _ _ _ => rfl, fun _ _ _ => rfl⟩

theorem trans {h₁ : Heap} (hc : Changed pages count h h₁) (hc' : Changed pages count h₁ h') :
    Changed pages count h h' := by
  obtain ⟨array, bump, mem, entry⟩ := hc
  obtain ⟨array', bump', mem', entry'⟩ := hc'
  rw [array] at array' mem' entry'
  exact ⟨array', bump'.trans bump, fun x hx hp => (mem' x hx hp).trans (mem x hx hp),
    fun p hp hp' => (entry' p hp hp').trans (entry p hp hp')⟩

theorem mono (hc : Changed pages count h h') (hsub : ∀ p ∈ pages, p ∈ pages') :
    Changed pages' count h h' :=
  ⟨hc.array, hc.bump, fun x hx hp => hc.mem x hx fun p hpp => hp p (hsub p hpp),
    fun p hp hpp => hc.entry p hp fun hpp' => hpp (hsub p hpp')⟩

end Changed

namespace Logged

variable {bound bound' : Nat}

theorem refl (bound : Nat) (h : Heap) : Logged bound h h :=
  ⟨[], rfl, fun _ hi => absurd hi List.not_mem_nil⟩

theorem trans {h₁ : Heap} (hl : Logged bound h h₁) (hl' : Logged bound h₁ h') :
    Logged bound h h' := by
  obtain ⟨l, hl, hlt⟩ := hl
  obtain ⟨l', hl', hlt'⟩ := hl'
  refine ⟨l' ++ l, ?_, fun i hi => (List.mem_append.mp hi).elim (hlt' i) (hlt i)⟩
  rw [hl', hl, List.append_assoc]

theorem mono (hl : Logged bound h h') (hle : bound ≤ bound') : Logged bound' h h' := by
  obtain ⟨l, hl, hlt⟩ := hl
  exact ⟨l, hl, fun i hi => (hlt i hi).trans_le hle⟩

end Logged

namespace Geometry

variable {array : ArrayNode}

theorem pageAddr_lt (g : Geometry array count) (hp : p ≤ count) : array.pageAddr p < 2 ^ 48 :=
  (Nat.add_le_add_left (Nat.mul_le_mul_right PAGE_SIZE hp) array.base).trans_lt g.bound

theorem start_pageKey (g : Geometry array count) (hp : p ≤ count) :
    array.start (pageKey (array.pageAddr p) >>> 16) = p := by
  have hlt := g.pageAddr_lt hp
  rw [ArrayNode.pageKey_shiftRight hlt]
  exact ArrayNode.start_pageAddr (k := 0) (by decide) (by omega)

theorem sub_pageAddr (g : Geometry array count) (hp : p ≤ count) {k : Nat} (hk : k ≤ p) :
    wrappingSub (array.pageAddr p) (k * PG_SIZE) = array.pageAddr (p - k) := by
  have hlt := g.pageAddr_lt hp
  simp only [wrappingSub, ArrayNode.pageAddr, PAGE_SIZE, PG_SIZE] at hlt ⊢
  omega

end Geometry

namespace Heap

/-- The entry of a page is written. -/
def setEntry (h : Heap) (p : Nat) (v : Int) : Heap :=
  { h with mem := writeI64 h.mem (h.array.nodes + 8 * p) v, accessed := p :: h.accessed }

/-- The entry of a page is read. -/
def touch (h : Heap) (p : Nat) : Heap := { h with accessed := p :: h.accessed }

theorem insert_pageAddr (g : Geometry h.array count) (hp : p < count) (v : Int) :
    h.insert (h.array.pageAddr p) v 1 = some (h.setEntry p v) := by
  have hstart := g.start_pageKey hp.le
  simp only [insert, ArrayNode.insert, if_neg g.nodes, hstart, ArrayNode.indices,
    ArrayNode.fill, Option.bind_eq_bind, Option.bind_some]
  rfl

theorem remove_pageAddr (g : Geometry h.array count) (hp : p < count) :
    h.remove (h.array.pageAddr p) 1 = some (h.setEntry p 0) := by
  have hstart := g.start_pageKey hp.le
  simp only [remove, ArrayNode.remove, if_neg g.nodes, hstart, ArrayNode.indices,
    ArrayNode.fill, Option.bind_eq_bind, Option.bind_some]
  rfl

theorem getMut_pageAddr (g : Geometry h.array count) (hp : p ≤ count) :
    h.getMut (h.array.pageAddr p) = (h.array.entry h.mem p, h.touch p) := by
  have hstart := g.start_pageKey hp
  simp only [getMut, ArrayNode.getMut, hstart, ArrayNode.indices]
  rfl

theorem entry_setEntry (hv : IsI64 v) (h : Heap) (p q : Nat) :
    h.array.entry (h.setEntry p v).mem q = if q = p then v else h.array.entry h.mem q := by
  split
  · next heq =>
      subst heq
      exact readI64_writeI64 hv
  · next hne => exact readI64_writeI64_of_ne v (by omega)

theorem setEntry_mem (v : Int) (h : Heap) (hp : p < count) {x : Nat}
    (hx : ¬h.array.InArray count x) : (h.setEntry p v).mem x = h.mem x := by
  refine writeI64_of_ne v ?_
  rintro rfl
  exact hx ⟨Nat.le_add_right _ _, by omega⟩

theorem setEntry_changed (hv : IsI64 v) (h : Heap) (hp : p < count) (hmem : p ∈ pages) :
    Changed pages count h (h.setEntry p v) := by
  refine ⟨rfl, rfl, fun x hx _ => setEntry_mem v h hp hx, fun q _ hq => ?_⟩
  rw [entry_setEntry hv, if_neg]
  rintro rfl
  exact hq hmem

theorem logged_cons {bound : Nat} (hp : p < bound) (hlog : h'.accessed = p :: h.accessed) :
    Logged bound h h' :=
  ⟨[p], hlog, by simpa using hp⟩

end Heap

theorem isI64_zero : IsI64 0 := ⟨by norm_num, by norm_num⟩

theorem isI64_tag (hidx : idx < BACKEND_MAX_PAGE) : IsI64 (tag idx) := by
  simp only [BACKEND_MAX_PAGE] at hidx
  rw [tag_eq (by simp only [FreeList.BACKEND_MAX_PAGE]; omega)]
  constructor <;> norm_num <;> omega

theorem tag_spec (hidx : idx < BACKEND_MAX_PAGE) :
    tag idx < 0 ∧ flag (tag idx) = idx + 1 ∧ 0 < (-tag idx).bmod (2 ^ 64) := by
  simp only [BACKEND_MAX_PAGE] at hidx
  have hidx' : idx < FreeList.BACKEND_MAX_PAGE := by
    simp only [FreeList.BACKEND_MAX_PAGE]
    omega
  refine ⟨FreeList.tag_neg hidx', flag_tag hidx', ?_⟩
  have hneg : IsI64 (-tag idx) := by
    rw [tag_eq hidx']
    constructor <;> norm_num <;> omega
  rw [bmod_of_isI64 hneg]
  have := FreeList.tag_neg hidx'
  omega

theorem flag_toNat (hidx : idx < BACKEND_MAX_PAGE) : (flag (tag idx)).toNat = idx + 1 := by
  rw [(tag_spec hidx).2.1]
  exact Int.toNat_natCast _

/-- The page table lies off the pages whose words change. -/
theorem entry_of_frame {array : ArrayNode} {mem mem' : Mem}
    (off : ∀ p ∈ pages, ∀ x, array.InPage p x → ¬array.InArray count x)
    (same : ∀ x, (∀ p ∈ pages, ¬array.InPage p x) → mem' x = mem x) (hp : p < count) :
    array.entry mem' p = array.entry mem p := by
  refine ArrayNode.entry_congr (same _ fun q hq hin => off q hq _ hin ?_)
  exact ⟨Nat.le_add_right _ _, by omega⟩

namespace Represents

theorem base_pos (rep : Represents h count L) : 0 < h.array.base := rep.geometry.base_pos

/-- The pages of a run on a list. -/
theorem run_pages (rep : Represents h count L) (hidx : idx < BACKEND_MAX_PAGE) (hi : i ∈ L idx)
    (hlo : i ≤ p) (hhi : p ≤ i + idx) : p ∈ freePages L ∧ 0 < p ∧ p < count :=
  have hmem := mem_freePages.mpr ⟨idx, hidx, i, hi, hlo, hhi⟩
  ⟨hmem, rep.inside p hmem⟩

theorem nonneg (rep : Represents h count L) (hp : p < count) (hfree : p ∉ freePages L) :
    0 ≤ h.array.entry h.mem p := by
  by_contra hneg
  exact hfree (rep.tagged.mem_of_neg hp (not_le.mp hneg))

/-- Only the words of the free runs and their entries matter, as long as the other entries are
no tags. -/
theorem frame (rep : Represents h count L) (array : h'.array = h.array)
    (lists : h'.lists = h.lists)
    (mem : ∀ p ∈ freePages L, ∀ x, h.array.InPage p x → h'.mem x = h.mem x)
    (same : ∀ p ∈ freePages L, h.array.entry h'.mem p = h.array.entry h.mem p)
    (nonneg : ∀ p < count, p ∉ freePages L → 0 ≤ h.array.entry h'.mem p) :
    Represents h' count L := by
  rw [← array] at same nonneg
  refine ⟨array ▸ rep.geometry, ?_, ?_, rep.nodup, rep.inside, array ▸ rep.off⟩
  · rw [array, lists]
    exact rep.threaded.congr mem
  · have tagged : Tagged (h'.array.entry h.mem) count L := by
      rw [array]
      exact rep.tagged
    exact tagged.congr same nonneg

/-- Values that are no tags are entered for pages that are not free. -/
theorem fill_spec (rep : Represents h count L) (hv : IsI64 v) (hnonneg : 0 ≤ v)
    (hle : i + n ≤ count) (live : ∀ p, i ≤ p → p < i + n → p ∉ freePages L) :
    ∃ h', h.insert (h.array.pageAddr i) v n = some h' ∧ Represents h' count L ∧
      Changed (Multiset.Ico i (i + n)) count h h' ∧ Logged count h h' := by
  have hstart := rep.geometry.start_pageKey (p := i) (by omega)
  have hout : ∀ x, ¬h.array.InArray count x → h.array.fill i v h.mem n x = h.mem x :=
    fun x hx => ArrayNode.fill_outside v h.mem i fun hin => hx ⟨hin.1, by
      have := hin.2
      omega⟩
  have hentry : ∀ p, h.array.entry (h.array.fill i v h.mem n) p =
      if i ≤ p ∧ p < i + n then v else h.array.entry h.mem p :=
    ArrayNode.entry_fill hv h.mem i n
  refine ⟨{ h with
    mem := h.array.fill i v h.mem n
    accessed := h.array.indices (pageKey (h.array.pageAddr i)) n ++ h.accessed }, ?_, ?_, ?_, ?_⟩
  · simp only [Heap.insert, ArrayNode.insert, if_neg rep.geometry.nodes, hstart,
      Option.bind_eq_bind, Option.bind_some]
  · refine rep.frame rfl rfl (fun p hp x hx => hout x (rep.off p hp x hx)) (fun p hp => ?_)
      fun p hp hfree => ?_
    · exact (hentry p).trans (if_neg fun hin => live p hin.1 hin.2 hp)
    · rw [hentry p]
      split
      · exact hnonneg
      · exact rep.nonneg hp hfree
  · refine ⟨rfl, rfl, fun x hx _ => hout x hx, fun p _ hp => ?_⟩
    exact (hentry p).trans (if_neg fun hin => hp (Multiset.mem_Ico.mpr hin))
  · refine ⟨_, rfl, fun q hq => ?_⟩
    simp only [ArrayNode.indices, hstart, List.mem_map, List.mem_range] at hq
    omega

theorem removeOne_nil (rep : Represents h count L) (hidx : idx < BACKEND_MAX_PAGE)
    (hL : L idx = []) : h.removeOne idx = some (h, none) := by
  have hhead := (rep.threaded idx hidx).1
  rw [hL] at hhead
  rw [Heap.removeOne, if_neg hidx.not_ge, hhead]
  rfl

/-- `remove_one` takes the first run of the list and clears its tags. -/
theorem removeOne_cons (rep : Represents h count L) (hidx : idx < BACKEND_MAX_PAGE)
    (hL : L idx = i :: rest) :
    ∃ h', h.removeOne idx = some (h', some (h.array.pageAddr i)) ∧
      Represents h' count (Function.update L idx rest) ∧ Changed (freePages L) count h h' ∧
      Logged count h h' ∧ ∀ p < count, h.array.entry h'.mem p =
        if p = i ∨ p = i + idx then 0 else h.array.entry h.mem p := by
  have hi : i ∈ L idx := hL ▸ List.mem_cons_self
  have hhead := (rep.threaded idx hidx).1
  rw [hL, List.map_cons, List.head?_cons] at hhead
  obtain ⟨hfirst, -, hfirstlt⟩ := rep.run_pages hidx hi le_rfl (Nat.le_add_right _ _)
  obtain ⟨hlast, -, hlastlt⟩ := rep.run_pages hidx hi (Nat.le_add_right _ _) le_rfl
  have hrem₁ := Heap.remove_pageAddr rep.geometry hfirstlt
  have hrem₂ : (h.setEntry i 0).remove (h.array.pageAddr (i + idx)) 1 =
      some ((h.setEntry i 0).setEntry (i + idx) 0) :=
    Heap.remove_pageAddr (h := h.setEntry i 0) rep.geometry hlastlt
  have changed : Changed (freePages L) count h ((h.setEntry i 0).setEntry (i + idx) 0) :=
    (Heap.setEntry_changed isI64_zero h hfirstlt hfirst).trans
      (Heap.setEntry_changed isI64_zero _ hlastlt hlast)
  have threaded : Threaded h.array ((h.setEntry i 0).setEntry (i + idx) 0).mem h.lists L :=
    rep.threaded.congr fun p hp x hx => by
      have hx' := rep.off p hp x hx
      rw [Heap.setEntry_mem 0 (h.setEntry i 0) hlastlt hx', Heap.setEntry_mem 0 h hfirstlt hx']
  obtain ⟨mem, hrem, threaded', hmem⟩ := threaded.pop rep.nodup rep.base_pos hidx hL
  have hentry : ∀ p < count, h.array.entry mem p =
      if p = i ∨ p = i + idx then 0 else h.array.entry h.mem p := fun p hp => by
    rw [entry_of_frame rep.off hmem hp]
    refine (Heap.entry_setEntry isI64_zero (h.setEntry i 0) (i + idx) p).trans ?_
    have hi := Heap.entry_setEntry isI64_zero h i p
    split_ifs with h₁ h₂ h₂
    · rfl
    · exact absurd (.inr h₁) h₂
    · exact hi.trans (if_pos (h₂.resolve_right h₁))
    · exact hi.trans (if_neg fun h => h₂ (.inl h))
  have hsub : ∀ p ∈ freePages (Function.update L idx rest), p ∈ freePages L := fun p hp =>
    freePages_pop hidx hL ▸ Multiset.mem_add.mpr (.inr hp)
  have hnodup := rep.nodup
  rw [freePages_pop hidx hL] at hnodup
  refine ⟨⟨mem, h.array, Function.update h.lists idx (rest.map h.array.pageAddr).head?, h.bump,
    (i + idx) :: i :: h.accessed⟩, ?_, ⟨rep.geometry, threaded', ?_, ?_, ?_, ?_⟩, ?_, ?_, hentry⟩
  · have hlastaddr : h.array.pageAddr i + idx * PG_SIZE = h.array.pageAddr (i + idx) :=
      ArrayNode.pageAddr_add _ _ _
    rw [Heap.removeOne, if_neg hidx.not_ge, hhead]
    simp only [hlastaddr, hrem₁, hrem₂, hrem, Option.bind_eq_bind, Option.bind_some]
    rfl
  · exact rep.tagged.pop rep.nodup (fun p hp => (rep.inside p hp).2) hidx hL hentry
  · exact (Multiset.nodup_add.mp hnodup).2.1
  · exact fun p hp => rep.inside p (hsub p hp)
  · exact fun p hp => rep.off p (hsub p hp)
  · exact changed.trans ⟨rfl, rfl, fun x _ hx => hmem x hx,
      fun p hp _ => entry_of_frame rep.off hmem hp⟩
  · exact ⟨[i + idx, i], rfl, by simp; omega⟩

/-- `remove_spec_one` does not merge: the successor of a node is another node. -/
theorem removeSpecOne_eq (rep : Represents h count L) (hidx : idx < BACKEND_MAX_PAGE)
    (hi : i ∈ L idx) :
    h.removeSpecOne idx (h.array.pageAddr i) = some (h.touch i, none) := by
  have hlt := (rep.run_pages hidx hi le_rfl (Nat.le_add_right _ _)).2.2
  have hne := (rep.threaded idx hidx).2.next_ne_self
    ((nodup_list rep.nodup hidx).map h.array.pageAddr_injective) (List.mem_map_of_mem hi)
  have hpos : 0 < h.array.pageAddr i := Nat.add_pos_left rep.base_pos _
  rw [Heap.removeSpecOne, if_neg hidx.not_ge, Heap.getMut_pageAddr rep.geometry hlt.le]
  simp only [(rep.tagged.ends idx hidx i hi).1, if_pos (tag_spec hidx).2.2, getRef_of_pos hpos,
    Option.bind_eq_bind, Option.bind_some]
  split
  · next succ hsucc => exact if_neg fun heq => hne (hsucc.trans (congrArg some heq))
  · rfl

/-- `insert_one` puts a new run at the head of its list and tags it. -/
theorem insertNew_spec (rep : Represents h count L) (hidx : idx < BACKEND_MAX_PAGE)
    (fresh : ∀ p, i ≤ p → p ≤ i + idx → p ∉ freePages L)
    (inside : 0 < i ∧ i + idx < count)
    (off : ∀ p, i ≤ p → p ≤ i + idx → ∀ x, h.array.InPage p x → ¬h.array.InArray count x) :
    ∃ h', h.insertNew idx (h.array.pageAddr i) = some h' ∧
      Represents h' count (Function.update L idx (i :: L idx)) ∧
      Changed (freePages (Function.update L idx (i :: L idx))) count h h' ∧
      Logged count h h' := by
  have hlt : ∀ p, i ≤ p → p ≤ i + idx → p < count := fun p _ hhi => by omega
  have hpages : ∀ {p}, p ∈ freePages (Function.update L idx (i :: L idx)) ↔
      (i ≤ p ∧ p ≤ i + idx) ∨ p ∈ freePages L := fun {p} => by
    rw [freePages_push hidx, Multiset.mem_add, Span.mem_pages]
    exact or_congr_left (and_congr_right' (by simp only; omega))
  have nodup : (freePages (Function.update L idx (i :: L idx))).Nodup := by
    rw [freePages_push hidx]
    refine Multiset.nodup_add.mpr ⟨Multiset.nodup_Ico, rep.nodup, Multiset.disjoint_left.mpr ?_⟩
    intro p hp
    obtain ⟨hlo, hhi⟩ := Span.mem_pages.mp hp
    exact fresh p hlo (Nat.lt_succ_iff.mp hhi)
  have hinside : ∀ p ∈ freePages (Function.update L idx (i :: L idx)), 0 < p ∧ p < count :=
    fun p hp => (hpages.mp hp).elim (fun h => ⟨by omega, by omega⟩) (rep.inside p)
  have hoff : ∀ p ∈ freePages (Function.update L idx (i :: L idx)), ∀ x,
      h.array.InPage p x → ¬h.array.InArray count x := fun p hp =>
    (hpages.mp hp).elim (fun h => off p h.1 h.2) (rep.off p)
  obtain ⟨mem, hpush, threaded, hmem⟩ := rep.threaded.push nodup rep.base_pos hidx
  let h₁ : Heap := { h with mem }
  have hlast : i + idx < count := inside.2
  have hins₁ : h₁.insert (h.array.pageAddr i) (tag idx) 1 = some (h₁.setEntry i (tag idx)) :=
    Heap.insert_pageAddr (h := h₁) rep.geometry (hlt i le_rfl (by omega)) (tag idx)
  have hins₂ : (h₁.setEntry i (tag idx)).insert (h.array.pageAddr (i + idx)) (tag idx) 1 =
      some ((h₁.setEntry i (tag idx)).setEntry (i + idx) (tag idx)) :=
    Heap.insert_pageAddr (h := h₁.setEntry i (tag idx)) rep.geometry hlast (tag idx)
  have hv := isI64_tag hidx
  have hmem' : ∀ x, ¬h.array.InArray count x →
      ((h₁.setEntry i (tag idx)).setEntry (i + idx) (tag idx)).mem x = mem x := fun x hx => by
    rw [Heap.setEntry_mem _ (h₁.setEntry i (tag idx)) hlast hx,
      Heap.setEntry_mem _ h₁ (hlt i le_rfl (by omega)) hx]
  have hentry : ∀ p < count, h.array.entry
      ((h₁.setEntry i (tag idx)).setEntry (i + idx) (tag idx)).mem p =
        if p = i ∨ p = i + idx then tag idx else h.array.entry h.mem p := fun p hp => by
    refine (Heap.entry_setEntry hv (h₁.setEntry i (tag idx)) (i + idx) p).trans ?_
    have hfirst := Heap.entry_setEntry hv h₁ i p
    split_ifs with h₁ h₂ h₂
    · rfl
    · exact absurd (.inr h₁) h₂
    · exact hfirst.trans (if_pos (h₂.resolve_right h₁))
    · refine (hfirst.trans (if_neg fun h => h₂ (.inl h))).trans ?_
      exact entry_of_frame hoff hmem hp
  refine ⟨{ (h₁.setEntry i (tag idx)).setEntry (i + idx) (tag idx) with
    lists := Function.update h.lists idx (some (h.array.pageAddr i)) }, ?_,
    ⟨rep.geometry, threaded.congr fun p hp x hx => hmem' x (hoff p hp x hx),
      rep.tagged.push nodup (fun p hp => (hinside p hp).2) hidx hentry, nodup, hinside, hoff⟩,
    ⟨rfl, rfl, fun x hx hp => (hmem' x hx).trans (hmem x hp), fun p hp hp' => ?_⟩,
    [i + idx, i], rfl, by simp; omega⟩
  · have hlastaddr : h.array.pageAddr i + idx * PG_SIZE = h.array.pageAddr (i + idx) :=
      ArrayNode.pageAddr_add _ _ _
    have hpos : 0 < h.array.pageAddr i := Nat.add_pos_left rep.base_pos _
    simp only [Heap.insertNew, getRef_of_pos hpos, Heap.insertOne, if_neg hidx.not_ge,
      Option.bind_eq_bind, Option.bind_some, hpush, hlastaddr]
    exact Option.bind_eq_some_iff.mpr ⟨_, hins₁, Option.bind_eq_some_iff.mpr ⟨_, hins₂, rfl⟩⟩
  · rw [hentry p hp, if_neg]
    exact fun hpi => hp' (hpages.mpr (.inl (by omega)))

end Represents

/-- A run has been taken from a list. -/
structure Taken (count : Nat) (h h' : Heap) (L L' : Nat → List Nat) (i num : Nat) : Prop where
  source : ∃ idx < BACKEND_MAX_PAGE, num ≤ idx + 1 ∧ i ∈ L idx
  rep : Represents h' count L'
  pages : freePages L = (⟨i, num⟩ : Span).pages + freePages L'
  changed : Changed (freePages L) count h h'
  logged : Logged count h h'
  /-- The first page was tagged, and is not any more. -/
  untagged : h.array.entry h.mem i < 0 ∧ h.array.entry h'.mem i = 0

namespace Represents

/-- A run that is long enough is cut in two. -/
theorem split_spec (rep : Represents h count L) {origin parentIdx : Nat}
    (hlt : origin < parentIdx) (hidx : parentIdx < BACKEND_MAX_PAGE)
    (hL : L parentIdx = i :: rest) :
    ∃ h₁ h' L', h.removeOne parentIdx = some (h₁, some (h.array.pageAddr i)) ∧
      h₁.insertNew (parentIdx - origin - 1) (h.array.pageAddr i + PG_SIZE * (origin + 1)) =
        some h' ∧ Taken count h h' L L' i (origin + 1) := by
  obtain ⟨h₁, hcall₁, rep₁, changed₁, logged₁, hentry⟩ := rep.removeOne_cons hidx hL
  have hi : i ∈ L parentIdx := hL ▸ List.mem_cons_self
  have haddr : h.array.pageAddr i + PG_SIZE * (origin + 1) =
      h₁.array.pageAddr (i + (origin + 1)) := by
    rw [changed₁.array, Nat.mul_comm]
    exact ArrayNode.pageAddr_add _ _ _
  have hrun : ∀ p, i ≤ p → p ≤ i + parentIdx → p ∈ freePages L ∧ 0 < p ∧ p < count := fun p =>
    rep.run_pages hidx hi
  have hpop := freePages_pop hidx hL
  have hnodup := rep.nodup
  rw [hpop] at hnodup
  obtain ⟨h', hcall', rep', changed', logged'⟩ := rep₁.insertNew_spec
    (show parentIdx - origin - 1 < BACKEND_MAX_PAGE by omega)
    (fun p (hlo : i + (origin + 1) ≤ p) hhi =>
      Multiset.disjoint_left.mp (Multiset.nodup_add.mp hnodup).2.2
      (Span.mem_pages.mpr ⟨by simp only; omega, by simp only; omega⟩))
    (by have := hrun (i + parentIdx) (by omega) le_rfl; omega)
    (fun p hlo hhi => by
      rw [changed₁.array]
      exact rep.off p (hrun p (by omega) (by omega)).1)
  rw [← haddr] at hcall'
  obtain ⟨L', hL'⟩ : ∃ L', L' = Function.update (Function.update L parentIdx rest)
    (parentIdx - origin - 1) ((i + (origin + 1)) ::
      Function.update L parentIdx rest (parentIdx - origin - 1)) := ⟨_, rfl⟩
  rw [← hL'] at rep' changed'
  have hpages : freePages L = (⟨i, origin + 1⟩ : Span).pages + freePages L' := by
    have hcut : (⟨i, parentIdx + 1⟩ : Span).pages = (⟨i, origin + 1⟩ : Span).pages +
        (⟨i + (origin + 1), parentIdx - origin - 1 + 1⟩ : Span).pages := by
      rw [← Span.pages_split, show origin + 1 + (parentIdx - origin - 1 + 1) = parentIdx + 1 by
        omega]
    rw [hpop, hL', freePages_push (by omega), hcut, Multiset.add_assoc]
  have hsub : ∀ p ∈ freePages L', p ∈ freePages L := fun p hp =>
    hpages ▸ Multiset.mem_add.mpr (.inr hp)
  have hfirst : i ∈ (⟨i, origin + 1⟩ : Span).pages := by simp
  have hkept : i ∉ freePages L' := Multiset.disjoint_left.mp
    (Multiset.nodup_add.mp (hpages ▸ rep.nodup)).2.2 hfirst
  have hlt : i < count := (hrun i le_rfl (Nat.le_add_right _ _)).2.2
  refine ⟨h₁, h', L', hcall₁, hcall', ⟨parentIdx, hidx, by omega, hi⟩, rep', hpages,
    changed₁.trans (changed'.mono hsub), logged₁.trans logged', ?_, ?_⟩
  · rw [(rep.tagged.ends parentIdx hidx i hi).1]
    exact (tag_spec hidx).1
  · have hsame := changed'.entry i hlt hkept
    rw [changed₁.array] at hsame
    rw [hsame, hentry i hlt, if_pos (.inl rfl)]

/-- A whole run of the list is taken. -/
theorem whole_spec (rep : Represents h count L) (hidx : idx < BACKEND_MAX_PAGE)
    (hL : L idx = i :: rest) :
    ∃ h' L', h.removeOne idx = some (h', some (h.array.pageAddr i)) ∧
      Taken count h h' L L' i (idx + 1) := by
  obtain ⟨h', hcall, rep', changed, logged, hentry⟩ := rep.removeOne_cons hidx hL
  have hi : i ∈ L idx := hL ▸ List.mem_cons_self
  refine ⟨h', _, hcall, ⟨idx, hidx, le_rfl, hi⟩, rep', freePages_pop hidx hL, changed, logged,
    ?_, ?_⟩
  · rw [(rep.tagged.ends idx hidx i hi).1]
    exact (tag_spec hidx).1
  · rw [hentry i (rep.run_pages hidx hi le_rfl (Nat.le_add_right _ _)).2.2, if_pos (.inl rfl)]

/-- The loop over the longer lists takes the first run that it finds. -/
theorem allocParent_spec (rep : Represents h count L) (origin : Nat) :
    ∀ n, origin + n < BACKEND_MAX_PAGE →
      (∃ h' L' i, h.allocParent origin n = some (h', some (h.array.pageAddr i)) ∧
        Taken count h h' L L' i (origin + 1)) ∨
      h.allocParent origin n = some (h, none) ∧
        ∀ idx, BACKEND_MAX_PAGE - n ≤ idx → idx < BACKEND_MAX_PAGE → L idx = [] := by
  intro n hn
  induction n with
  | zero => exact .inr ⟨rfl, fun idx hle hlt => absurd hlt (by omega)⟩
  | succ n ih =>
      have hidx : BACKEND_MAX_PAGE - (n + 1) < BACKEND_MAX_PAGE := by omega
      simp only [Heap.allocParent]
      rcases hL : L (BACKEND_MAX_PAGE - (n + 1)) with - | ⟨i, rest⟩
      · rw [rep.removeOne_nil hidx hL]
        refine (ih (by omega)).imp_right fun ⟨hcall, hempty⟩ => ⟨hcall, fun idx hle hlt => ?_⟩
        obtain rfl | hne := eq_or_ne idx (BACKEND_MAX_PAGE - (n + 1))
        · exact hL
        · exact hempty idx (by omega) hlt
      · have hlt : origin < BACKEND_MAX_PAGE - (n + 1) := by omega
        obtain ⟨h₁, h', L', hcall₁, hcall', taken⟩ := rep.split_spec hlt hidx hL
        refine .inl ⟨h', L', i, ?_, taken⟩
        simp only [hcall₁, hcall', Option.bind_eq_bind, Option.bind_some]

/-- The lists serve a request exactly when one of those with long enough runs is not empty. -/
theorem allocListed_spec (rep : Represents h count L) (origin : Nat) :
    (∃ h' L' i, h.allocListed origin = some (h', some (h.array.pageAddr i)) ∧
      Taken count h h' L L' i (origin + 1)) ∨
    h.allocListed origin = some (h, none) ∧
      ∀ idx, origin ≤ idx → idx < BACKEND_MAX_PAGE → L idx = [] := by
  rw [Heap.allocListed]
  split
  · next horigin =>
      rcases hL : L origin with - | ⟨i, rest⟩
      · rw [rep.removeOne_nil horigin hL]
        refine (rep.allocParent_spec origin _ (by omega)).imp_right ?_
        rintro ⟨hcall, hempty⟩
        refine ⟨hcall, fun idx hle hlt => ?_⟩
        obtain rfl | hne := eq_or_ne idx origin
        · exact hL
        · exact hempty idx (by omega) hlt
      · obtain ⟨h', L', hcall, taken⟩ := rep.whole_spec horigin hL
        refine .inl ⟨h', L', i, ?_, taken⟩
        simp only [hcall, Option.bind_eq_bind, Option.bind_some]
  · exact .inr ⟨rfl, fun idx hle hlt => absurd hlt (by omega)⟩

end Represents

namespace Heap

/-- A list has a run that is long enough. -/
def Served (h : Heap) (size : Nat) : Prop :=
  ∃ idx, originSize size ≤ idx ∧ idx < BACKEND_MAX_PAGE ∧ h.lists idx ≠ none

/-- A request that `BUMP` has to serve does not exceed the end address of the heap, so that its
comparison does not wrap. -/
def Fits (h : Heap) (size : Nat) : Prop :=
  h.Served size ∨ BumpAlloc.allocSize size ≤ h.bump.checkPoint

theorem allocBump_of_le {size : Nat} (hle : BumpAlloc.allocSize size ≤ h.bump.checkPoint)
    (hcheck : h.bump.checkPoint < 2 ^ 64) :
    h.allocBump size =
      if h.bump.checkPoint < h.bump.current + BumpAlloc.allocSize size then
        (h, .error .ENOMEM)
      else
        ({ h with bump := ⟨h.bump.checkPoint, h.bump.current + BumpAlloc.allocSize size⟩ },
          .ok h.bump.current) := by
  have hcall : PageBump.allocFixed h.bump size = _ :=
    PageBump.allocFixed_of_fits (s := ⟨h.bump, (0, 0), []⟩) 0 hle hcheck
  dsimp only at hcall
  rw [allocBump, hcall]
  by_cases hlarge : h.bump.checkPoint < h.bump.current + BumpAlloc.allocSize size
  · rw [if_pos hlarge, if_pos hlarge]
  · rw [if_neg hlarge, if_neg hlarge]

theorem allocSize_eq {size : Nat} (hpos : 0 < size) (hlt : size < 2 ^ 63) :
    BumpAlloc.allocSize size = (originSize size + 1) * PAGE_SIZE := by
  simp only [BumpAlloc.allocSize, originSize, PG_SIZE, PAGE_SIZE, wrappingSub]
  omega

end Heap

namespace Represents

theorem served_iff (rep : Represents h count L) (size : Nat) :
    h.Served size ↔ ∃ idx, originSize size ≤ idx ∧ idx < BACKEND_MAX_PAGE ∧ L idx ≠ [] := by
  refine exists_congr fun idx => and_congr_right fun _ => and_congr_right fun hidx => not_congr ?_
  rw [(rep.threaded idx hidx).1, List.head?_eq_none_iff, List.map_eq_nil_iff]

/-- A request is served by a list, or passed on to `BUMP` with nothing changed. -/
theorem alloc_spec (rep : Represents h count L) (size : Nat) :
    (h.Served size ∧ ∃ h' L' i, h.alloc size = some (h', .ok (h.array.pageAddr i)) ∧
      Taken count h h' L L' i (originSize size + 1)) ∨
    ¬h.Served size ∧ h.alloc size = some (h.allocBump size) := by
  obtain ⟨h', L', i, hcall, taken⟩ | ⟨hcall, hempty⟩ := rep.allocListed_spec (originSize size)
  · refine .inl ⟨?_, h', L', i, ?_, taken⟩
    · obtain ⟨idx, hidx, hle, hi⟩ := taken.source
      exact (rep.served_iff size).mpr ⟨idx, Nat.le_of_succ_le_succ hle, hidx,
        List.ne_nil_of_mem hi⟩
    · simp only [Heap.alloc, hcall, Option.bind_eq_bind, Option.bind_some]
  · refine .inr ⟨fun hserved => ?_, ?_⟩
    · obtain ⟨idx, hle, hidx, hne⟩ := (rep.served_iff size).mp hserved
      exact hne (hempty idx hle hidx)
    · simp only [Heap.alloc, hcall, Option.bind_eq_bind, Option.bind_some]

/-- Only the log of accesses is another. -/
theorem relog (rep : Represents h count L) (l : List Nat) :
    Represents { h with accessed := l } count L :=
  ⟨rep.geometry, rep.threaded, rep.tagged, rep.nodup, rep.inside, rep.off⟩

end Represents

theorem Changed.relog (pages : Multiset Nat) (count : Nat) (h : Heap) (l : List Nat) :
    Changed pages count h { h with accessed := l } :=
  ⟨rfl, rfl, fun _ _ _ => rfl, fun _ _ _ => rfl⟩

/-- What becomes of the lists when a block of `n` pages is given back. -/
def freed (L : Nat → List Nat) (i n : Nat) : Nat → List Nat :=
  if n ≤ BACKEND_MAX_PAGE then Function.update L (n - 1) (i :: L (n - 1)) else L

/-- A block of `n` pages that is given back. -/
structure Freeable (h : Heap) (count : Nat) (L : Nat → List Nat) (i n : Nat) : Prop where
  pos : 0 < i
  num : 0 < n
  inside : i + n ≤ count
  live : ∀ p, i ≤ p → p < i + n → p ∉ freePages L
  off : ∀ p, i ≤ p → p < i + n → ∀ x, h.array.InPage p x → ¬h.array.InArray count x
  /-- Behind the last page of the heap the word after the page table is read. -/
  behind : i + n = count → 0 ≤ h.array.entry h.mem count

namespace Represents

variable {origin finalIdx : Nat}

/-- The run in front is looked at and left alone. -/
theorem mergePrev_eq (rep : Represents h count L) (free : Freeable h count L i n)
    (origin : Nat) : ∃ l, h.mergePrev (h.array.pageAddr i) origin =
      some ({ h with accessed := l ++ h.accessed }, h.array.pageAddr i, origin) ∧
      ∀ q ∈ l, q < count := by
  have hnum := free.num
  have hinside := free.inside
  have hprev : wrappingSub (h.array.pageAddr i) PG_SIZE = h.array.pageAddr (i - 1) :=
    (congrArg _ (Nat.one_mul _).symm).trans (rep.geometry.sub_pageAddr (by omega) free.pos)
  have hlt : i - 1 < count := by omega
  simp only [Heap.mergePrev, hprev, Heap.getMut_pageAddr rep.geometry hlt.le]
  split
  · next hflag =>
      obtain ⟨idx, hidx, j, hj, hpj⟩ := rep.tagged.others _ hlt (FreeList.neg_of_flag_pos hflag)
      -- a run that begins there would reach into the block
      have hlast : i = j + idx + 1 := by
        by_contra hne
        exact free.live i le_rfl (by omega) (rep.run_pages hidx hj (by omega) (by omega)).1
      have htag := (rep.tagged.ends idx hidx j hj).2
      rw [show j + idx = i - 1 by omega] at htag
      have hstart : wrappingSub (h.array.pageAddr i) ((idx + 1) * PG_SIZE) =
          h.array.pageAddr j := by
        rw [rep.geometry.sub_pageAddr (by omega) (by omega), show i - (idx + 1) = j by omega]
      have hlog : ∀ q ∈ [j, i - 1], q < count := by
        simp
        omega
      have hspec := (rep.relog ((i - 1) :: h.accessed)).removeSpecOne_eq hidx hj
      refine ⟨[j, i - 1], ?_, hlog⟩
      simp only [htag, flag_toNat hidx, hstart, Nat.add_sub_cancel]
      exact Option.bind_eq_some_iff.mpr ⟨_, hspec, rfl⟩
  · exact ⟨[i - 1], rfl, by simpa using hlt⟩

/-- The run behind is looked at and left alone. -/
theorem mergeNext_eq (rep : Represents h count L) (free : Freeable h count L i n)
    (finalIdx : Nat) : ∃ l, h.mergeNext (h.array.pageAddr i) (n - 1) finalIdx =
      some ({ h with accessed := l ++ h.accessed }, finalIdx) ∧
      i + n ∈ l ∧ ∀ q ∈ l, q ≤ i + n := by
  have hnum := free.num
  have hnext : h.array.pageAddr i + (n - 1 + 1) * PG_SIZE = h.array.pageAddr (i + n) := by
    rw [Nat.sub_add_cancel hnum]
    exact ArrayNode.pageAddr_add _ _ _
  simp only [Heap.mergeNext, hnext, Heap.getMut_pageAddr rep.geometry free.inside]
  split
  · next hflag =>
      have hneg := FreeList.neg_of_flag_pos hflag
      have hlt : i + n < count := by
        refine lt_of_le_of_ne free.inside fun heq => ?_
        rw [heq] at hneg
        exact (free.behind heq).not_gt hneg
      obtain ⟨idx, hidx, j, hj, hpj⟩ := rep.tagged.others _ hlt hneg
      -- a run that ends there would begin in the block
      have hfirst : i + n = j := by
        by_contra hne
        exact free.live (i + n - 1) (by omega) (by omega)
          (rep.run_pages hidx hj (by omega) (by omega)).1
      have htag := (rep.tagged.ends idx hidx j hj).1
      rw [← hfirst] at htag hj
      have hspec := (rep.relog ((i + n) :: h.accessed)).removeSpecOne_eq hidx hj
      refine ⟨[i + n, i + n], ?_, by simp, by simp⟩
      simp only [htag, flag_toNat hidx, Nat.add_sub_cancel]
      exact Option.bind_eq_some_iff.mpr ⟨_, hspec, rfl⟩
  · exact ⟨[i + n], rfl, by simp, by simp⟩

/-- The probes change nothing, and the block goes to the list of its length if there is one. -/
theorem free_eq (rep : Represents h count L) (free : Freeable h count L i n) {size : Nat}
    (horigin : originSize size = n - 1) :
    ∃ l, h.free (h.array.pageAddr i) size =
        (if n - 1 < BACKEND_MAX_PAGE then
          Heap.insertNew { h with accessed := l ++ h.accessed } (n - 1) (h.array.pageAddr i)
        else some { h with accessed := l ++ h.accessed }) ∧
      i + n ∈ l ∧ ∀ q ∈ l, q < max count (i + n + 1) := by
  obtain ⟨l, hprev, hl⟩ := rep.mergePrev_eq free (n - 1)
  obtain ⟨l', hnext, hmem, hl'⟩ := Represents.mergeNext_eq (rep.relog (l ++ h.accessed))
    ⟨free.pos, free.num, free.inside, free.live, free.off, free.behind⟩ (n - 1)
  dsimp only at hnext
  refine ⟨l' ++ l, ?_, List.mem_append_left _ hmem, fun q hq => ?_⟩
  · rw [Heap.free, List.append_assoc]
    generalize originSize size = origin at horigin ⊢
    subst horigin
    rw [hprev, Option.bind_eq_bind, Option.bind_some]
    dsimp only
    rw [hnext, Option.bind_eq_bind, Option.bind_some]
  · obtain hq | hq := List.mem_append.mp hq
    · exact lt_max_of_lt_right (Nat.lt_succ_of_le (hl' q hq))
    · exact lt_max_of_lt_left (hl q hq)

/-- A block that a list can hold gets a node, and a longer one is gone. -/
theorem free_spec (rep : Represents h count L) (free : Freeable h count L i n) {size : Nat}
    (hsize : originSize size + 1 = n) :
    ∃ h', h.free (h.array.pageAddr i) size = some h' ∧ Represents h' count (freed L i n) ∧
      Changed (freePages (freed L i n)) count h h' ∧ Logged (max count (i + n + 1)) h h' ∧
      i + n ∈ h'.accessed := by
  obtain ⟨l, hcall, hmem, hl⟩ := rep.free_eq free (Nat.eq_sub_of_add_eq hsize)
  have hlog : Logged (max count (i + n + 1)) h { h with accessed := l ++ h.accessed } :=
    ⟨l, rfl, hl⟩
  have hnum := free.num
  rw [hcall, freed]
  by_cases hle : n ≤ BACKEND_MAX_PAGE
  · obtain ⟨h', hcall', rep', changed', l', hlog', hlt'⟩ := Represents.insertNew_spec
      (rep.relog (l ++ h.accessed)) (show n - 1 < BACKEND_MAX_PAGE by omega)
      (fun p hlo hhi => free.live p hlo (by omega))
      ⟨free.pos, by have := free.inside; omega⟩ (fun p hlo hhi => free.off p hlo (by omega))
    rw [if_pos (by omega), if_pos hle]
    refine ⟨h', hcall', rep', ?_, ?_, ?_⟩
    · exact (Changed.relog _ count h _).trans changed'
    · exact hlog.trans (Logged.mono ⟨l', hlog', hlt'⟩ (le_max_left _ _))
    · rw [hlog']
      exact List.mem_append_right _ (List.mem_append_left _ hmem)
  · rw [if_neg (by omega), if_neg hle]
    exact ⟨_, rfl, rep.relog _, Changed.relog _ count h _, hlog, List.mem_append_left _ hmem⟩

end Represents

end UniAlloc.FixedHeap
