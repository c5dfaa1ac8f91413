import UniAlloc.Separate.Pages

/-!
# Runs for pages

A page gets a run from the backend before it is in the radix tree, and it leaves the tree
before it gives its run back. New pages go to the end of the vector; there is no more than
one page without a run for each run that the backend has out.
-/

namespace UniAlloc.Separate

open FreeList (Block PG_SIZE)
open Radix
open Slab (Config HeldPage Kind Lawful PAGE_SIZE PageBackend RadixFits SameOn)

variable {σ : Type} {c : Config} {Holds : σ → Mem → RadixTree → Set Block → Prop}
  {B : PageBackend σ} {self self' : SCAllocator} {h : Heap σ} {loose : Option Nat}
  {R : Kind → List Nat} {kind : Kind} {idx j i x p : Nat}

/-- A page that counts nothing has no chunk out. -/
theorem Pages.not_bit (pages : Pages c Holds self h loose) (hlt : idx < self.pages.len)
    (hcounter : (self.page idx).counter = 0) (hi : i < c.count) :
    Words.bit (self.row idx) i = false := by
  rw [pages.counter idx hlt, Finset.card_eq_zero] at hcounter
  by_contra hset
  have hmem : i ∈ Words.ones (self.row idx) c.count :=
    Words.mem_ones.mpr ⟨hi, by simpa using hset⟩
  rw [hcounter] at hmem
  exact absurd hmem (Finset.notMem_empty i)

namespace Edit

/-- The chunks of the other pages are out as before, if those of `idx` are not. -/
theorem out_iff (edit : Edit self self' idx)
    (hbefore : ∀ i < c.count, Words.bit (self.row idx) i = false)
    (hafter : ∀ i < c.count, Words.bit (self'.row idx) i = false) :
    Out c self' x ↔ Out c self x := by
  constructor
  · rintro ⟨j, i, ⟨hlt, hdata, hi, hx⟩, hset⟩
    have hj : j ≠ idx := by
      rintro rfl
      rw [hafter i hi] at hset
      exact absurd hset (by decide)
    rw [edit.page j hj] at hdata hx
    rw [edit.row j hj] at hset
    exact ⟨j, i, ⟨edit.len ▸ hlt, hdata, hi, hx⟩, hset⟩
  · rintro ⟨j, i, ⟨hlt, hdata, hi, hx⟩, hset⟩
    have hj : j ≠ idx := by
      rintro rfl
      rw [hbefore i hi] at hset
      exact absurd hset (by decide)
    rw [← edit.page j hj] at hdata hx
    rw [← edit.row j hj] at hset
    exact ⟨j, i, ⟨edit.len ▸ hlt, hdata, hi, hx⟩, hset⟩

end Edit

namespace Pages

/-- The entries of a page change, and those of the others do not. -/
theorem retag (law : Lawful B Holds) (pages : Pages c Holds self h loose)
    (hlt : idx < self.pages.len) (hdata : (self.page idx).data ≠ 0)
    (hloose : ∀ j, loose = some j → j = idx) (loose' : Option Nat)
    (hloose' : ∀ j, loose' = some j → j = idx)
    {tree : RadixTree}
    (htree : ∀ p, tree.entry p = if p ∈ (c.run (self.page idx).data).pages
      then (if loose' = some idx then 0 else (idx : Int) + 1) else h.tree.entry p) :
    Pages c Holds self { h with tree } loose' := by
  have hbound := pages.bound
  refine ⟨pages.tight, pages.shaped, pages.counter, pages.unmapped, ?_, ?_, pages.fits,
    pages.bound⟩
  · apply law.use pages.holds (fun _ _ => rfl)
    intro p
    rw [htree]
    split
    · next hp =>
        refine .inr ⟨⟨_, ⟨idx, hlt, hdata, rfl⟩, hp⟩, ?_⟩
        split <;> omega
    · exact .inl rfl
  · intro j hj hmapped p hp
    by_cases hne : j = idx
    · subst hne
      exact (htree p).trans (if_pos hp)
    · have hother : p ∉ (c.run (self.page idx).data).pages :=
        fun hp' => hne (pages.eq_of_page hj hmapped hlt hdata hp hp')
      rw [htree, if_neg hother, pages.entry j hj hmapped p hp,
        if_neg (fun e => hne (hloose j e)), if_neg (fun e => hne (hloose' j e))]

/-- A new run is registered. -/
theorem register (law : Lawful B Holds) (pages : Pages c Holds self h (some idx))
    (hlt : idx < self.pages.len) (hdata : (self.page idx).data ≠ 0) :
    ∃ tree, self.handleRdTreeInsert h.tree idx (self.page idx).data = some tree ∧
      Pages c Holds self { h with tree } none := by
  have placed := pages.placed law hlt hdata
  obtain ⟨tree, hcall, htree⟩ := Slab.registerRun_spec h.tree ((idx + 1 : Nat) : Int)
    placed.aligned placed.num_pos (Slab.bound_pages placed) (pages.fits idx hlt hdata).1
  refine ⟨tree, ?_, pages.retag law hlt hdata (by rintro j ⟨⟩; rfl) none nofun ?_⟩
  · rw [SCAllocator.handleRdTreeInsert, pages.shaped.pgNum]
    exact hcall
  · intro p
    rw [htree]
    simp only [FreeList.Block.mem_pages, reduceCtorEq, if_false, Nat.cast_succ]
    rfl

/-- The run that is to be given back leaves the tree. -/
theorem unregister (law : Lawful B Holds) (pages : Pages c Holds self h none)
    (hlt : idx < self.pages.len) (hdata : (self.page idx).data ≠ 0) :
    ∃ tree, self.handleRdTreeRemove h.tree (self.page idx).data = some tree ∧
      Pages c Holds self { h with tree } (some idx) := by
  have placed := pages.placed law hlt hdata
  have hnum : ({ Slab.SCAllocator.new 0 0 with pgNum := c.pgNum } : Slab.SCAllocator).pgNum =
    c.pgNum := rfl
  obtain ⟨tree, hcall, htree⟩ := Slab.unregisterRun_spec h.tree _ hnum
    placed.aligned placed.num_pos (Slab.bound_pages placed) (pages.fits idx hlt hdata).2
  refine ⟨tree, ?_, pages.retag law hlt hdata nofun (some idx) (by rintro j ⟨⟩; rfl) ?_⟩
  · rw [SCAllocator.handleRdTreeRemove, pages.shaped.pgNum]
    exact hcall
  · intro p
    rw [htree, if_pos rfl]
    simp only [FreeList.Block.mem_pages]
    rfl

/-- A page without a run gets one. -/
theorem acquire (law : Lawful B Holds) (pages : Pages c Holds self h none)
    (hlt : idx < self.pages.len) (hzero : (self.page idx).data = 0) (hnum : 0 < c.pgNum)
    {ptr : Nat} {back : σ} {mem : Mem} {tree : RadixTree} (fits : RadixFits (c.run ptr))
    (halloc : B.alloc h.back h.mem h.tree (PAGE_SIZE * c.pgNum) = some (ptr, back, mem, tree)) :
    ∃ self', self.allocatePage B h idx = .ok (self', ⟨mem, tree, back⟩, ptr) ∧
      Edit self self' idx ∧ self'.page idx = { self.page idx with data := ptr } ∧ ptr ≠ 0 ∧
      Pages c Holds self' ⟨mem, tree, back⟩ (some idx) ∧ ∀ x, Out c self' x ↔ Out c self x := by
  obtain ⟨holds, hfresh, same, hentry⟩ := law.alloc pages.holds hnum halloc
  have hptr : ptr ≠ 0 := (law.placed holds (Set.mem_insert _ _)).pos.ne'
  obtain ⟨edit, hpage⟩ := Edit.setItem hlt { self.page idx with data := ptr }
  have hcounter := pages.unmapped idx hlt hzero
  have hclear : ∀ i < c.count, Words.bit (self.row idx) i = false :=
    fun i hi => pages.not_bit hlt hcounter hi
  have hruns : runs c { self with
      pages := self.pages.setItem idx { self.page idx with data := ptr } } =
      insert (c.run ptr) (runs c self) := by
    rw [runs_of_mapped (edit.len ▸ hlt) (by rw [hpage]; exact hptr), edit.otherRuns,
      runs_of_unmapped hzero, hpage]
  refine ⟨_, ?_, edit, hpage, hptr, ⟨pages.tight, pages.shaped.edit edit, ?_, ?_, ?_, ?_, ?_, ?_⟩,
    fun x => edit.out_iff hclear hclear⟩
  · rw [SCAllocator.allocatePage, SCAllocator.get_page hlt, pages.shaped.pgNum]
    simp only [orPanic, bind, Except.bind, halloc, if_neg hptr]
  · intro j hj
    by_cases hne : j = idx
    · subst hne
      rw [hpage]
      exact pages.counter j hlt
    · rw [edit.page j hne, edit.row j hne]
      exact pages.counter j (edit.len ▸ hj)
  · intro j hj hdata
    by_cases hne : j = idx
    · subst hne
      rw [hpage] at hdata ⊢
      exact hcounter
    · rw [edit.page j hne] at hdata ⊢
      exact pages.unmapped j (edit.len ▸ hj) hdata
  · rw [hruns]
    exact holds
  · intro j hj hdata p hp
    by_cases hne : j = idx
    · subst hne
      rw [hpage] at hp
      rw [if_pos rfl]
      exact hentry p hp
    · rw [edit.page j hne] at hdata hp
      rw [edit.len] at hj
      rw [if_neg (fun e => hne (Option.some.inj e).symm),
        same.entry p ⟨_, ⟨j, hj, hdata, rfl⟩, hp⟩, pages.entry j hj hdata p hp, if_neg nofun]
  · intro j hj hdata
    by_cases hne : j = idx
    · subst hne
      rw [hpage]
      exact fits
    · rw [edit.page j hne] at hdata ⊢
      exact pages.fits j (edit.len ▸ hj) hdata
  · rw [edit.len]
    exact pages.bound

/-- A page that counts nothing gives its run back. -/
theorem giveBack (law : Lawful B Holds) (pages : Pages c Holds self h (some idx))
    (hlt : idx < self.pages.len) (hdata : (self.page idx).data ≠ 0)
    (hcounter : (self.page idx).counter = 0) :
    ∃ self' h', self.destroyPage B h idx = some (self', h') ∧ Edit self self' idx ∧
      (self'.page idx).data = 0 ∧ Pages c Holds self' h' none ∧
      ∀ x, Out c self' x ↔ Out c self x := by
  have hrun := runs_of_mapped (c := c) hlt hdata
  have hnot := pages.run_not_mem law hlt hdata
  obtain ⟨back, mem, tree, hdealloc, holds, same⟩ := law.dealloc pages.holds
    (hrun ▸ Set.mem_insert _ _) fun p hp => by rw [pages.entry idx hlt hdata p hp, if_pos rfl]
  rw [hrun, Set.insert_sdiff_self_of_notMem hnot] at holds same
  obtain ⟨edit, hpage⟩ := Edit.setItem hlt { self.page idx with data := 0 }
  have hclear : ∀ i < c.count, Words.bit (self.row idx) i = false :=
    fun i hi => pages.not_bit hlt hcounter hi
  refine ⟨_, ⟨mem, tree, back⟩, ?_, edit, by rw [hpage],
    ⟨pages.tight, pages.shaped.edit edit, ?_, ?_, ?_, ?_, ?_, ?_⟩,
    fun x => edit.out_iff hclear hclear⟩
  · rw [SCAllocator.destroyPage, SCAllocator.get_page hlt, pages.shaped.pgNum]
    simp only [bind, Option.bind, if_neg hdata]
    rw [show B.dealloc h.back h.mem h.tree (self.page idx).data (PAGE_SIZE * c.pgNum) =
      some (back, mem, tree) from hdealloc]
  · intro j hj
    by_cases hne : j = idx
    · subst hne
      rw [hpage]
      exact pages.counter j hlt
    · rw [edit.page j hne, edit.row j hne]
      exact pages.counter j (edit.len ▸ hj)
  · intro j hj hzero
    by_cases hne : j = idx
    · subst hne
      rw [hpage]
      exact hcounter
    · rw [edit.page j hne] at hzero ⊢
      exact pages.unmapped j (edit.len ▸ hj) hzero
  · rw [runs_of_unmapped (by rw [hpage]), edit.otherRuns]
    exact holds
  · intro j hj hmapped p hp
    have hne : j ≠ idx := by
      rintro rfl
      rw [hpage] at hmapped
      exact hmapped rfl
    rw [edit.page j hne] at hmapped hp
    rw [edit.len] at hj
    rw [if_neg nofun, same.entry p ⟨_, ⟨j, hj, hne, hmapped, rfl⟩, hp⟩,
      pages.entry j hj hmapped p hp, if_neg (fun e => hne (Option.some.inj e).symm)]
  · intro j hj hmapped
    have hne : j ≠ idx := by
      rintro rfl
      rw [hpage] at hmapped
      exact hmapped rfl
    rw [edit.page j hne] at hmapped ⊢
    exact pages.fits j (edit.len ▸ hj) hmapped
  · rw [edit.len]
    exact pages.bound

end Pages

namespace SCAllocator

theorem page_push (self : SCAllocator) (j : Nat) : self.pushPage.page j = self.page j := by
  obtain hlt | rfl | hgt := Nat.lt_trichotomy j self.pages.list.length
  · rw [page, page, ArrayLinkedList.get, ArrayLinkedList.get, pushPage, ArrayLinkedList.push,
      List.getElem?_append_left hlt]
  · rw [page, page, ArrayLinkedList.get, ArrayLinkedList.get, pushPage, ArrayLinkedList.push,
      List.getElem?_concat_length, List.getElem?_eq_none le_rfl]
    rfl
  · have hlen : self.pushPage.pages.len ≤ j := (ArrayLinkedList.push_len _ _).trans_le hgt
    rw [page_of_le hlen, page_of_le hgt.le]

theorem row_push (shaped : Shaped c self) (hlt : j < self.pages.len) :
    self.pushPage.row j = self.row j := by
  have hle := shaped.row_le hlt
  rw [Nat.succ_mul] at hle
  rw [row, row, pushPage]
  dsimp only
  rw [List.drop_append_of_le_length (by omega),
    List.take_append_of_le_length (by rw [List.length_drop]; omega)]

/-- The bits of a new page are clear. -/
theorem row_push_self (shaped : Shaped c self) :
    self.pushPage.row self.pages.len = List.replicate (wordCount c.count) 0 := by
  have hlen : self.bitfields.length = self.pages.len * wordCount self.pgCount := by
    rw [shaped.bits, shaped.pgCount]
  rw [row, pushPage]
  dsimp only
  rw [← hlen, List.drop_left, List.take_of_length_le (List.length_replicate).le, shaped.pgCount]

end SCAllocator

namespace Pages

/-- There are no more pages with a run than there are addresses of runs. -/
theorem len_le (law : Lawful B Holds) (pages : Pages c Holds self h loose)
    (hall : ∀ idx < self.pages.len, (self.page idx).data ≠ 0) : self.pages.len ≤ 2 ^ 35 := by
  have hcard : (Finset.range self.pages.len).card ≤ (Finset.range (2 ^ 35)).card := by
    apply Finset.card_le_card_of_injOn fun idx => (self.page idx).data / PG_SIZE
    · intro idx hidx
      have hlt := Finset.mem_range.mp hidx
      have placed := pages.placed law hlt (hall idx hlt)
      have hbound : (self.page idx).data / PG_SIZE + c.pgNum ≤ 2 ^ 35 := placed.bound
      have hpos : 0 < c.pgNum := placed.num_pos
      exact Finset.mem_range.mpr (show (self.page idx).data / PG_SIZE < 2 ^ 35 by omega)
    · intro idx hidx j hj heq
      have heq : (self.page idx).data / PG_SIZE = (self.page j).data / PG_SIZE := heq
      have hlt := Finset.mem_range.mp hidx
      have hlt' := Finset.mem_range.mp hj
      have hp := pages.head_mem law hlt (hall idx hlt)
      have hp' := pages.head_mem law hlt' (hall j hlt')
      exact pages.eq_of_page hlt (hall idx hlt) hlt' (hall j hlt') hp (heq ▸ hp')
  rwa [Finset.card_range, Finset.card_range] at hcard

/-- A new page has neither a run nor chunks. -/
theorem push (law : Lawful B Holds) (pages : Pages c Holds self h none)
    (hall : ∀ idx < self.pages.len, (self.page idx).data ≠ 0) :
    Pages c Holds self.pushPage h none ∧ ∀ x, Out c self.pushPage x ↔ Out c self x := by
  have hlen : self.pushPage.pages.len = self.pages.len + 1 := ArrayLinkedList.push_len _ _
  have hnew : self.page self.pages.len = ObjectPage.new := SCAllocator.page_of_le le_rfl
  -- a page with a run is not the new one
  have hold : ∀ j < self.pushPage.pages.len, (self.page j).data ≠ 0 → j < self.pages.len := by
    intro j hj hdata
    rw [hlen] at hj
    obtain rfl | hlt := Nat.eq_or_lt_of_le (Nat.le_of_lt_succ hj)
    · rw [hnew] at hdata
      exact absurd rfl hdata
    · exact hlt
  have hruns : runs c self.pushPage = runs c self := by
    ext b
    constructor
    · rintro ⟨j, hj, hdata, rfl⟩
      rw [self.page_push] at hdata ⊢
      exact ⟨j, hold j hj hdata, hdata, rfl⟩
    · rintro ⟨j, hj, hdata, rfl⟩
      rw [← self.page_push] at hdata ⊢
      exact ⟨j, hlen ▸ Nat.lt_succ_of_lt hj, hdata, rfl⟩
  refine ⟨⟨pages.tight, ⟨pages.shaped.pgNum, pages.shaped.pgCount, pages.shaped.pgAlign, ?_⟩, ?_,
    ?_, hruns ▸ pages.holds, ?_, ?_, ?_⟩, ?_⟩
  · rw [hlen, Nat.succ_mul, SCAllocator.pushPage, List.length_append, List.length_replicate,
      pages.shaped.bits, pages.shaped.pgCount]
  · intro j hj
    rw [hlen] at hj
    rw [self.page_push]
    obtain rfl | hlt := Nat.eq_or_lt_of_le (Nat.le_of_lt_succ hj)
    · rw [hnew, SCAllocator.row_push_self pages.shaped, Words.ones_replicate_zero]
      rfl
    · rw [SCAllocator.row_push pages.shaped hlt]
      exact pages.counter j hlt
  · intro j hj hdata
    rw [hlen] at hj
    rw [self.page_push] at hdata ⊢
    obtain rfl | hlt := Nat.eq_or_lt_of_le (Nat.le_of_lt_succ hj)
    · rw [hnew]
      rfl
    · exact pages.unmapped j hlt hdata
  · intro j hj hdata
    rw [self.page_push] at hdata ⊢
    exact pages.entry j (hold j hj hdata) hdata
  · intro j hj hdata
    rw [self.page_push] at hdata ⊢
    exact pages.fits j (hold j hj hdata) hdata
  · rw [hlen]
    exact Nat.succ_le_succ (pages.len_le law hall)
  · intro x
    constructor
    · rintro ⟨j, i, ⟨hj, hdata, hi, hx⟩, hset⟩
      rw [self.page_push] at hdata hx
      have hlt := hold j hj hdata
      rw [SCAllocator.row_push pages.shaped hlt] at hset
      exact ⟨j, i, ⟨hlt, hdata, hi, hx⟩, hset⟩
    · rintro ⟨j, i, ⟨hlt, hdata, hi, hx⟩, hset⟩
      rw [← self.page_push] at hdata hx
      rw [← SCAllocator.row_push pages.shaped hlt] at hset
      exact ⟨j, i, ⟨hlen ▸ Nat.lt_succ_of_lt hlt, hdata, hi, hx⟩, hset⟩

end Pages

/-- The new page is the only one on its ring. -/
theorem Filed.push (filed : Filed c self R none) (hnone : R .uninit = []) :
    Filed c
      { self.pushPage with
        start := Function.update self.start .uninit self.pages.len
        count := Function.update self.count .uninit 1 }
      (Function.update R .uninit [self.pages.len]) none := by
  obtain ⟨hprev, hnext⟩ := ArrayLinkedList.push_links self.pages ObjectPage.new
  have hlen : self.pushPage.pages.len = self.pages.len + 1 := ArrayLinkedList.push_len _ _
  have hring : ∀ {l}, self.pages.Ring l → self.pushPage.pages.Ring l := fun ring =>
    ring.congr (fun x hx => hlen ▸ Nat.lt_succ_of_lt (ring.lt x hx)) (fun x _ => congrFun hprev x)
      fun x _ => congrFun hnext x
  have hnew : self.pushPage.pages.Ring [self.pages.len] := by
    refine ⟨List.nodup_singleton _, ?_, LinkedRing.singleton_iff.mpr ⟨?_, ?_⟩⟩
    · intro x hx
      rw [List.mem_singleton.mp hx, hlen]
      exact Nat.lt_succ_self _
    · rw [SCAllocator.pushPage, hnext, ArrayLinkedList.next_of_le le_rfl]
    · rw [SCAllocator.pushPage, hprev, ArrayLinkedList.prev_of_le le_rfl]
  have hmem : ∀ k x, x ∈ Function.update R .uninit [self.pages.len] k →
      x = self.pages.len ∧ k = .uninit ∨ k ≠ .uninit ∧ x ∈ R k := by
    intro k x hx
    by_cases hk : k = .uninit
    · subst hk
      rw [Function.update_self] at hx
      exact .inl ⟨List.mem_singleton.mp hx, rfl⟩
    · rw [Function.update_of_ne hk] at hx
      exact .inr ⟨hk, hx⟩
  refine ⟨⟨?_, ?_, ?_, ?_, ?_⟩, ?_, ?_, nofun⟩
  · intro i hi
    have hi : i < self.pages.len + 1 := hlen ▸ hi
    obtain rfl | hlt := Nat.eq_or_lt_of_le (Nat.le_of_lt_succ hi)
    · exact ⟨[], hnew⟩
    · obtain ⟨m, ring⟩ := filed.threads.rings i hlt
      exact ⟨m, hring ring⟩
  · intro k
    by_cases hk : k = .uninit
    · subst hk
      rw [Function.update_self]
      exact hnew
    · rw [Function.update_of_ne hk]
      exact hring (filed.threads.ring k)
  · intro k
    by_cases hk : k = .uninit
    · subst hk
      simp only [Function.update_self]
      rfl
    · simp only [Function.update_of_ne hk]
      exact filed.threads.count k
  · intro k x hx
    by_cases hk : k = .uninit
    · subst hk
      simp only [Function.update_self] at hx ⊢
      exact Option.some.inj hx
    · simp only [Function.update_of_ne hk] at hx ⊢
      exact filed.threads.start k x hx
  · intro a b x ha hb
    obtain ⟨hx, hak⟩ | ⟨-, ha⟩ := hmem a x ha
    · obtain ⟨-, hbk⟩ | ⟨-, hb⟩ := hmem b x hb
      · exact hak.trans hbk.symm
      · exact absurd (filed.lt hb) (by omega)
    · obtain ⟨hx, -⟩ | ⟨-, hb⟩ := hmem b x hb
      · exact absurd (filed.lt ha) (by omega)
      · exact filed.threads.apart ha hb
  · intro k j hj
    have hpage : SCAllocator.page { self.pushPage with
        start := Function.update self.start .uninit self.pages.len
        count := Function.update self.count .uninit 1 } j = self.page j := self.page_push j
    rw [hpage]
    obtain ⟨rfl, rfl⟩ | ⟨-, hj⟩ := hmem k j hj
    · rw [SCAllocator.page_of_le le_rfl]
      rfl
    · exact filed.belongs hj
  · intro j hj _
    have hj : j < self.pages.len + 1 := hlen ▸ hj
    obtain rfl | hlt := Nat.eq_or_lt_of_le (Nat.le_of_lt_succ hj)
    · refine ⟨.uninit, ?_⟩
      rw [Function.update_self]
      exact List.mem_singleton_self _
    · obtain ⟨k, hk⟩ := filed.all j hlt nofun
      refine ⟨k, ?_⟩
      have hne : k ≠ .uninit := by
        rintro rfl
        rw [hnone] at hk
        exact absurd hk List.not_mem_nil
      rwa [Function.update_of_ne hne]

end UniAlloc.Separate
