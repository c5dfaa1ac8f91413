import Mathlib.Algebra.BigOperators.Group.Finset.Basic
import Mathlib.Algebra.Order.BigOperators.Group.Finset
import UniAlloc.Separate.System

/-!
# Calls that go wrong

An aligned allocation that fails has opened a page, and leaves it among the partially used
ones. A batch goes on behind its last entry if the next one lies in the run of the same page.
In both cases the condition under which it does not happen is exact. The batch is followed by
the sum of all counters, from which every round takes as much as it takes back.
-/

namespace UniAlloc.Separate

open FreeList (Block PG_SIZE)
open Radix Transition
open Slab (Config HeldPage Kind Lawful PAGE_SIZE PageBackend RadixFits SameOn align12k asUsize)

variable {σ : Type} {c : Config} {Holds : σ → Mem → RadixTree → Set Block → Prop}
  {B : PageBackend σ} {self self' : SCAllocator} {h h' : Heap σ} {R R' : Kind → List Nat}
  {kind : Kind} {idx x y : Nat} {s : State σ}

/-- An allocation that fails takes no run, moves no page between the rings, and leaves only
pages with chunks out among the partially used ones. -/
def FailsCleanly (B : PageBackend σ) (s : State σ) (align : Nat) : Prop :=
  ∀ slab heap, s.slab.allocate B s.heap align = .ok (slab, heap, none) →
    heap.back = s.heap.back ∧ heap.tree = s.heap.tree ∧
      ∀ R R', Threads s.slab R → Threads slab R' →
        (∀ kind idx, idx ∈ R' kind ↔ idx ∈ R kind) ∧
        ∀ idx ∈ R' .partially, 0 < (slab.page idx).counter

/-- An allocation fails cleanly exactly if it cannot fail. -/
theorem failsCleanly_iff {sizeClass numOsPages : Nat} {mem : Mem} {back : σ} {tr : List Event}
    (law : Lawful B Holds) (hsize : 0 < sizeClass) (hle : sizeClass ≤ PAGE_SIZE * numOsPages)
    (fits : ∀ {back mem tree held ptr r}, Holds back mem tree held →
      B.alloc back mem tree (PAGE_SIZE * numOsPages) = some (ptr, r) → RadixFits ⟨ptr, numOsPages⟩)
    (start : Holds back mem TreeNode.zeroed ∅)
    (run : Run (Step B) (State.new sizeClass numOsPages mem back) tr s) :
    ∃ rings, WellShaped s rings ∧ ∀ align, FailsCleanly B s align ↔
      CanServe B (configOf sizeClass numOsPages) s.slab s.heap rings align := by
  have grants : Grants B Holds (configOf sizeClass numOsPages) := fun holds halloc =>
    fits holds halloc
  obtain ⟨R, rep⟩ := represented_run law grants (represented_new hsize hle start) run
  refine ⟨R, rep.wellShaped law, ?_⟩
  intro align
  obtain ⟨slab, heap, R', x, hcall, -, -, serve⟩ |
    ⟨slab, heap, R', idx, hcall, settled, -, hnot, hmem, hcounter⟩ | ⟨hcall, serve⟩ :=
    rep.settled.allocate_spec law grants align
  · refine iff_of_true ?_ serve
    intro slab' heap' hfail
    rw [hcall] at hfail
    exact absurd hfail nofun
  · refine iff_of_false ?_ hnot
    intro clean
    obtain ⟨-, -, hrings⟩ := clean slab heap hcall
    have hpos := (hrings R R' rep.settled.filed.threads settled.filed.threads).2 idx hmem
    exact absurd hcounter hpos.ne'
  · refine iff_of_true ?_ serve
    intro slab' heap' hfail
    rw [hcall] at hfail
    exact absurd hfail nofun

/-- Pages of one chunk, of which one is out. -/
theorem failsCleanly_iff_page :
    let s := Path.last (State.new 4096 1 (fun _ => 0) (0x1000000, 0x2000000))
      (play (State.move Slab.carving)
        (State.new 4096 1 (fun _ => 0) (0x1000000, 0x2000000)) [Move.allocate 1])
    ∃ rings, WellShaped s rings ∧ ∀ align, FailsCleanly Slab.carving s align ↔
      CanServe Slab.carving (configOf 4096 1) s.slab s.heap rings align :=
  failsCleanly_iff Slab.carving_lawful (by decide : 0 < 4096) (by decide : 4096 ≤ PAGE_SIZE * 1)
    (fun _ _ => Slab.radixFits_of_le (by decide : 1 ≤ 4097)) Slab.carved_region
    (play_path (fun h => State.move_step h) _ [Move.allocate 1]).run

/-- The only run left begins with an odd page, so that no chunk is aligned to two pages, but
the run has been taken when the call returns. -/
theorem failure_takes_run :
    ¬∀ (s : State (Nat × Nat)) (tr : List Event), Run (Step Slab.carving)
      (State.new 4096 1 (fun _ => 0) (0x1000000, 0x2000000)) tr s →
        ∀ k, FailsCleanly Slab.carving s (2 ^ k) := by
  intro always
  have hcall : ∃ r ∈ ((State.new 4096 1 (fun _ => 0) (0x1000000, 0x2000000)).slab.allocate
      Slab.carving (State.new 4096 1 (fun _ => 0) (0x1000000, 0x2000000)).heap (2 ^ 13)).toOption,
      r.2.2 = none ∧ r.2.1.back ≠ (0x1000000, 0x2000000) := by decide +kernel
  obtain ⟨⟨slab, heap, ans⟩, hr, hnone, hback⟩ := hcall
  obtain rfl : ans = none := hnone
  exact hback (always _ [] .nil 13 slab heap (ok_of_toOption hr)).1

/-- Up to the page size no alignment fails, because runs begin with a page. -/
theorem canServe_of_le (law : Lawful B Holds) (settled : Settled c Holds self h R) {k : Nat}
    (hk : k ≤ 12) : CanServe B c self h R (2 ^ k) := by
  have hpage : ∀ {ptr}, (c.run ptr).Placed → ∃ i < c.count,
      ObjectPage.alignmentOk (ptr + i * c.align) (2 ^ k) := by
    intro ptr placed
    refine ⟨0, settled.pages.tight.count_pos, ?_⟩
    have hmask : (2 ^ k + (2 ^ 64 - 1)) % 2 ^ 64 = 2 ^ k - 1 := by
      have hpos : 0 < 2 ^ k := Nat.two_pow_pos k
      have hle : 2 ^ k ≤ 2 ^ 12 := Nat.pow_le_pow_right (by decide) hk
      omega
    have hdvd : 2 ^ k ∣ ptr :=
      (Nat.pow_dvd_pow 2 hk).trans (Nat.dvd_of_mod_eq_zero placed.aligned)
    rw [ObjectPage.alignmentOk, Nat.zero_mul, Nat.add_zero, hmask,
      Nat.and_two_pow_sub_one_eq_mod, Nat.mod_eq_zero_of_dvd hdvd]
    rfl
  refine .inr ?_
  split
  · next hpos =>
      have hstart := settled.filed.threads.start_mem hpos
      exact hpage (settled.pages.placed law (settled.lt hstart) (settled.filed.belongs hstart).1)
  · intro ptr r halloc
    obtain ⟨back, mem, tree⟩ := r
    have holds := (law.alloc settled.pages.holds settled.num_pos halloc).1
    exact hpage (law.placed holds (Set.mem_insert _ _))

namespace SCAllocator

/-- The chunks that are out by the counters of the pages. -/
def total (self : SCAllocator) : Nat := ∑ idx ∈ Finset.range self.pages.len, (self.page idx).counter

end SCAllocator

/-- The counters are the same. -/
structure SameCounters (sc sc' : SCAllocator) : Prop where
  len : sc'.pages.len = sc.pages.len
  counter : ∀ j, (sc'.page j).counter = (sc.page j).counter

namespace SameCounters

theorem refl (sc : SCAllocator) : SameCounters sc sc := ⟨rfl, fun _ => rfl⟩

theorem trans {self'' : SCAllocator} (first : SameCounters self self')
    (second : SameCounters self' self'') : SameCounters self self'' :=
  ⟨second.len.trans first.len, fun j => (second.counter j).trans (first.counter j)⟩

theorem of_samePages (same : SamePages self self') : SameCounters self self' :=
  ⟨same.len, fun j => by rw [same.page]⟩

theorem total_eq (same : SameCounters self self') : self'.total = self.total := by
  rw [SCAllocator.total, SCAllocator.total, same.len]
  exact Finset.sum_congr rfl fun j _ => same.counter j

end SameCounters

/-- Moves between the rings leave the pages alone, whatever the links are. -/
theorem SamePages.of_removeFrom (hcall : self.removeFrom kind idx = some self') :
    SamePages self self' := by
  obtain ⟨start, -, hcall⟩ := Option.bind_eq_some_iff.mp hcall
  obtain ⟨pages, hremove, hcall⟩ := Option.bind_eq_some_iff.mp hcall
  obtain ⟨-, hcall⟩ := Option.ite_none_left_eq_some.mp hcall
  obtain rfl := Option.some.inj hcall
  exact ⟨ArrayLinkedList.removeNode_items hremove, rfl, rfl, rfl, rfl⟩

theorem SamePages.of_insertInto (hcall : self.insertInto kind idx = some self') :
    SamePages self self' := by
  obtain ⟨pages, hinsert, hcall⟩ := Option.bind_eq_some_iff.mp hcall
  obtain rfl := Option.some.inj hcall
  have hitems : pages.items = self.pages.items := by
    split at hinsert
    · exact ArrayLinkedList.resetLinks_items hinsert
    · exact ArrayLinkedList.insertToPrev_items hinsert
  exact ⟨hitems, rfl, rfl, rfl, rfl⟩

namespace SameCounters

theorem of_destroyPage (hcall : self.destroyPage B h idx = some (self', h')) :
    SameCounters self self' := by
  obtain ⟨obj, hget, hcall⟩ := Option.bind_eq_some_iff.mp hcall
  obtain ⟨-, hcall⟩ := Option.ite_none_left_eq_some.mp hcall
  obtain ⟨⟨back, mem, tree⟩, -, hcall⟩ := Option.bind_eq_some_iff.mp hcall
  obtain ⟨rfl, -⟩ := Prod.mk.inj (Option.some.inj hcall)
  have hobj : self.page idx = obj := by
    rw [SCAllocator.page, hget]
    rfl
  refine ⟨ArrayLinkedList.setItem_len _ _ _, fun j => ?_⟩
  have hpage : SCAllocator.page
      { self with pages := self.pages.setItem idx { obj with data := 0 } } j =
      if j = idx ∧ j < self.pages.len then { obj with data := 0 } else self.page j :=
    self.page_setItem idx _ j
  rw [hpage]
  split
  · next hj => rw [hj.1, hobj]
  · rfl

theorem of_release (hcall : self.release B h idx = some (self', h')) :
    SameCounters self self' := by
  obtain ⟨released, -, hcall⟩ := Option.bind_eq_some_iff.mp hcall
  obtain ⟨tree, -, hcall⟩ := Option.bind_eq_some_iff.mp hcall
  rw [SCAllocator.backEty] at hcall
  split at hcall
  · obtain ⟨self₁, hinsert, hcall⟩ := Option.bind_eq_some_iff.mp hcall
    exact (of_samePages (.of_insertInto hinsert)).trans (of_destroyPage hcall)
  · obtain ⟨self₁, hinsert, hcall⟩ := Option.bind_eq_some_iff.mp hcall
    obtain ⟨rfl, -⟩ := Prod.mk.inj (Option.some.inj hcall)
    exact of_samePages (.of_insertInto hinsert)

theorem of_relocate {backPartial : Bool}
    (hcall : self.relocate B h idx backPartial = some (self', h')) : SameCounters self self' := by
  obtain ⟨obj, -, hcall⟩ := Option.bind_eq_some_iff.mp hcall
  split at hcall
  · obtain ⟨self₁, hremove, hcall⟩ := Option.bind_eq_some_iff.mp hcall
    have first := of_samePages (.of_removeFrom hremove)
    split at hcall
    · exact first.trans (of_release hcall)
    · obtain ⟨self₂, hinsert, hcall⟩ := Option.bind_eq_some_iff.mp hcall
      obtain ⟨rfl, -⟩ := Prod.mk.inj (Option.some.inj hcall)
      exact first.trans (of_samePages (.of_insertInto hinsert))
  · split at hcall
    · obtain ⟨self₁, hremove, hcall⟩ := Option.bind_eq_some_iff.mp hcall
      exact (of_samePages (.of_removeFrom hremove)).trans (of_release hcall)
    · obtain ⟨rfl, -⟩ := Prod.mk.inj (Option.some.inj hcall)
      exact refl self

end SameCounters

/-- The page that a round goes to takes `t` from its counter. -/
theorem SCAllocator.total_store {obj : ObjectPage} {bitfield : List U32} {t : Nat}
    (hlt : idx < self.pages.len) (hle : t ≤ (self.page idx).counter)
    (hobj : obj.counter = (self.page idx).counter - t) :
    (self.store idx obj bitfield).total + t = self.total := by
  have hlen : (self.store idx obj bitfield).pages.len = self.pages.len :=
    ArrayLinkedList.setItem_len _ _ _
  have hpage : ∀ j, (self.store idx obj bitfield).page j =
      if j = idx ∧ j < self.pages.len then obj else self.page j :=
    self.page_setItem idx obj
  have hmem : idx ∈ Finset.range self.pages.len := Finset.mem_range.mpr hlt
  have hothers : ∑ j ∈ (Finset.range self.pages.len).erase idx,
      ((self.store idx obj bitfield).page j).counter =
      ∑ j ∈ (Finset.range self.pages.len).erase idx, (self.page j).counter := by
    apply Finset.sum_congr rfl
    intro j hj
    rw [hpage, if_neg (fun h => (Finset.mem_erase.mp hj).1 h.1)]
  have hhere : ((self.store idx obj bitfield).page idx).counter = (self.page idx).counter - t := by
    rw [hpage, if_pos ⟨rfl, hlt⟩, hobj]
  rw [total, total, hlen, ← Finset.add_sum_erase _ _ hmem, ← Finset.add_sum_erase _ _ hmem,
    hothers, hhere]
  omega

/-- A round takes from the counters as much as it takes back: the entries up to the first one
outside the page. -/
theorem deallocateHead_total {resArray : List Nat} {t : Nat}
    (hcall : self.deallocateHead B h x resArray = some (self', h', t)) :
    self'.total + t = self.total ∧ ∀ v, TreeNode.getMut h.tree (pageKey (align12k x)) = some v →
      t = (resArray.takeWhile
        (ObjectPage.InPage (self.page (asUsize (v - 1))).data self.pgNum ·)).length := by
  obtain ⟨v, hv, hcall⟩ := Option.bind_eq_some_iff.mp hcall
  obtain ⟨obj, hget, hcall⟩ := Option.bind_eq_some_iff.mp hcall
  obtain ⟨bitfield, -, hcall⟩ := Option.bind_eq_some_iff.mp hcall
  obtain ⟨⟨obj', bitfield', t'⟩, hfree, hcall⟩ := Option.bind_eq_some_iff.mp hcall
  obtain ⟨-, hcall⟩ := Option.ite_none_left_eq_some.mp hcall
  obtain ⟨⟨self₁, h₁⟩, hrelocate, hcall⟩ := Option.bind_eq_some_iff.mp hcall
  simp only [Option.some.injEq, Prod.mk.injEq] at hcall
  obtain ⟨rfl, rfl, rfl⟩ := hcall
  have hobj : self.page (asUsize (v - 1)) = obj := by
    rw [SCAllocator.page, hget]
    rfl
  have hlt : asUsize (v - 1) < self.pages.len := by
    by_contra hge
    rw [ArrayLinkedList.get, List.getElem?_eq_none (Nat.le_of_not_lt hge)] at hget
    exact absurd hget.symm (Option.some_ne_none obj)
  -- the page takes back the prefix of the array
  obtain ⟨⟨bits, ans⟩, hwhile, hfree⟩ := Option.bind_eq_some_iff.mp hfree
  obtain ⟨hle, hfree⟩ := Option.ite_none_right_eq_some.mp hfree
  simp only [Option.some.injEq, Prod.mk.injEq] at hfree
  obtain ⟨rfl, rfl, rfl⟩ := hfree
  refine ⟨?_, ?_⟩
  · rw [(SameCounters.of_relocate hrelocate).total_eq]
    exact SCAllocator.total_store hlt (hobj ▸ hle) (by rw [hobj])
  · intro v' hv'
    obtain rfl := Option.some.inj (hv.symm.trans hv')
    rw [hobj]
    exact (ObjectPage.freeWhile_eq_some hwhile).1.trans (Nat.zero_add _)

/-- The sum of the counters is the number of chunks that are out. -/
theorem Represented.total_le (law : Lawful B Holds) (rep : Represented Holds c s R) :
    s.slab.total ≤ s.out.card := by
  have pages := rep.settled.pages
  have hsum : s.slab.total = ((Finset.range s.slab.pages.len).sigma fun idx =>
      Words.ones (s.slab.row idx) c.count).card := by
    rw [Finset.card_sigma, SCAllocator.total]
    apply Finset.sum_congr rfl
    intro idx hidx
    exact pages.counter idx (Finset.mem_range.mp hidx)
  -- every bit that is set belongs to a chunk of its own
  have hchunk : ∀ p ∈ (Finset.range s.slab.pages.len).sigma fun idx =>
      Words.ones (s.slab.row idx) c.count,
      IsChunk c s.slab p.1 p.2 ((s.slab.page p.1).data + p.2 * c.align) ∧
        Words.bit (s.slab.row p.1) p.2 = true := by
    intro p hp
    obtain ⟨hidx, hset⟩ := Finset.mem_sigma.mp hp
    have hlt := Finset.mem_range.mp hidx
    obtain ⟨hi, hbit⟩ := Words.mem_ones.mp hset
    refine ⟨⟨hlt, ?_, hi, rfl⟩, hbit⟩
    intro hzero
    rw [pages.not_bit hlt (pages.unmapped _ hlt hzero) hi] at hbit
    exact absurd hbit (by decide)
  rw [hsum, ← Multiset.toFinset_card_of_nodup rep.nodup]
  apply Finset.card_le_card_of_injOn fun p => (s.slab.page p.1).data + p.2 * c.align
  · intro p hp
    obtain ⟨chunk, hbit⟩ := hchunk p hp
    exact Multiset.mem_toFinset.mpr ((rep.out _).mpr ⟨p.1, p.2, chunk, hbit⟩)
  · rintro ⟨idx, i⟩ hp ⟨j, i'⟩ hq heq
    have heq : (s.slab.page idx).data + i * c.align = (s.slab.page j).data + i' * c.align := heq
    have chunk := (hchunk _ hp).1
    have chunk' := (hchunk _ hq).1
    obtain ⟨rfl, rfl⟩ := pages.chunk_unique law chunk (heq ▸ chunk')
    rfl

theorem WellShaped.card_le (shaped : WellShaped s R) : s.out.card ≤ s.slab.total := by
  have hsub : s.out.toFinset ⊆ (Finset.range s.slab.pages.len).biUnion fun idx =>
      if (s.slab.page idx).data = 0 then ∅
      else ((Finset.range s.slab.pgCount).filter fun i =>
        (s.slab.page idx).data + i * s.slab.pgAlign ∈ s.out).image
          fun i => (s.slab.page idx).data + i * s.slab.pgAlign := by
    intro x hx
    obtain ⟨idx, hlt, i, hi, hdata, rfl⟩ := shaped.chunk x (Multiset.mem_toFinset.mp hx)
    refine Finset.mem_biUnion.mpr ⟨idx, Finset.mem_range.mpr hlt, ?_⟩
    rw [if_neg hdata]
    exact Finset.mem_image_of_mem _ (Finset.mem_filter.mpr
      ⟨Finset.mem_range.mpr hi, Multiset.mem_toFinset.mp hx⟩)
  rw [← Multiset.toFinset_card_of_nodup shaped.out_nodup, SCAllocator.total]
  refine (Finset.card_le_card hsub).trans (Finset.card_biUnion_le.trans ?_)
  apply Finset.sum_le_sum
  intro idx hidx
  split
  · exact Nat.zero_le _
  · next hdata =>
      rw [shaped.outstanding idx (Finset.mem_range.mp hidx) hdata]
      exact Finset.card_image_le

/-- A page with a chunk that stays out keeps its run. -/
theorem SameRun.of_returns (law : Lawful B Holds) (pages : Pages c Holds self h none)
    {chunks : List Nat} (returns : Returns c self self' chunks) (hout : Out c self' x)
    (run : SameRun c self x y) : SameRun c self' x y := by
  obtain ⟨idx, hdata, hx, hy⟩ := run
  have hmapped : ∀ {j}, (self.page j).data ≠ 0 → j < self.pages.len := by
    intro j hdata
    by_contra hge
    rw [SCAllocator.page_of_le (Nat.le_of_not_lt hge)] at hdata
    exact hdata rfl
  obtain ⟨j', i', chunk', -⟩ := (returns.out x).mp hout |>.1
  obtain rfl := pages.page_of_inPage law (hmapped hdata) hdata hx chunk'
  obtain ⟨j, i, chunk, -⟩ := hout
  have hsame := (returns.data j).resolve_right chunk.mapped
  have hin : ObjectPage.InPage (self.page j).data c.pgNum x := by
    rw [← hsame, chunk.eq]
    exact ObjectPage.inPage_chunk pages.tight.toOk _ chunk.lt
  have hj : (self.page j).data ≠ 0 := hsame ▸ chunk.mapped
  obtain rfl := pages.page_of_inPage law (hmapped hj) hj hin chunk'
  exact ⟨j', chunk.mapped, hsame.symm ▸ hx, hsame.symm ▸ hy⟩

/-- If the last group goes on behind the batch, then more is taken from the counters than the
batch is long. -/
theorem Settled.deallocateWhile_total (law : Lawful B Holds) (settled : Settled c Holds self h R)
    {resArray : List Nat} {count deallocated fuel : Nat} (hlt : deallocated < count)
    (hx : resArray[count - 1]? = some x) (hy : resArray[count]? = some y)
    (run : SameRun c self x y) (nodup : ((resArray.take count).drop deallocated).Nodup)
    (hout : ∀ z ∈ (resArray.take count).drop deallocated, Out c self z)
    (hcall : SCAllocator.deallocateWhile B resArray count fuel self h deallocated =
      some (self', h')) :
    self'.total + (count - deallocated) < self.total := by
  induction fuel generalizing self h R deallocated with
  | zero => exact absurd hcall.symm (Option.some_ne_none _)
  | succ fuel ih =>
      rw [SCAllocator.deallocateWhile, if_pos hlt] at hcall
      obtain ⟨ptr, hptr, hcall⟩ := Option.bind_eq_some_iff.mp hcall
      obtain ⟨⟨self₁, h₁, t⟩, hhead, hcall⟩ := Option.bind_eq_some_iff.mp hcall
      have hmem : ∀ {j z}, deallocated ≤ j → j < count → resArray[j]? = some z →
          z ∈ (resArray.take count).drop deallocated := by
        intro j z hle hj hz
        obtain ⟨k, rfl⟩ := Nat.exists_eq_add_of_le hle
        apply List.mem_of_getElem? (i := k)
        rw [List.getElem?_drop, List.getElem?_take_of_lt hj, hz]
      obtain ⟨idx, group, rest, grp⟩ := settled.exists_group hptr (hout ptr (hmem le_rfl hlt hptr))
      obtain ⟨htotal, hlength⟩ := deallocateHead_total hhead
      by_cases hfits : deallocated + (ptr :: group).length ≤ count
      · obtain ⟨hsplit, self₂, h₂, R₂, hround, settled₂, returns, nodup₂, hout₂⟩ :=
          settled.round_spec law grp hfits nodup hout
        obtain ⟨⟩ := Option.some.inj (hhead.symm.trans hround)
        -- the last group does not end at the end of the batch
        have hne : deallocated + (ptr :: group).length ≠ count := by
          intro heq
          have hlast := grp.inPage (j := count - 1) (by omega) (by omega) hx
          have hnext : rest.head? = some y := by
            rw [← hy, ← heq, ← List.head?_drop, ← List.drop_drop, grp.split, List.drop_left]
          obtain ⟨idx', hdata', hx', hy'⟩ := run
          have hlt' : idx' < self.pages.len := by
            by_contra hge
            rw [SCAllocator.page_of_le (Nat.le_of_not_lt hge)] at hdata'
            exact hdata' rfl
          obtain ⟨j, i, chunk, -⟩ := hout x (hmem (by omega) (by omega) hx)
          obtain rfl := settled.pages.page_of_inPage law grp.lt grp.mapped hlast chunk
          obtain rfl := settled.pages.page_of_inPage law hlt' hdata' hx' chunk
          exact grp.stop y hnext hy'
        have hmore : deallocated + (ptr :: group).length < count := lt_of_le_of_ne hfits hne
        have hx₁ : Out c self₁ x := by
          obtain ⟨k, hk⟩ := Nat.exists_eq_add_of_le (Nat.le_sub_one_of_lt hmore)
          apply hout₂ x
          apply List.mem_of_getElem? (i := k)
          rw [List.getElem?_drop, ← hk, List.getElem?_take_of_lt (by omega), hx]
        have hrest := ih settled₂ hmore (run.of_returns law settled.pages returns hx₁) nodup₂ hout₂
          hcall
        omega
      · -- the group goes on behind the batch, so this round is the last one
        have ht : t = (ptr :: group).length := by
          obtain ⟨j, i, chunk, -⟩ := hout ptr (hmem le_rfl hlt hptr)
          have hin := grp.inside ptr List.mem_cons_self
          obtain rfl := settled.pages.page_of_inPage law grp.lt grp.mapped hin chunk
          have hprefix := hlength _ (settled.pages.getMut_chunk law chunk)
          rw [settled.pages.asUsize_page grp.lt, settled.pages.shaped.pgNum, grp.split,
            List.takeWhile_append_of_pos (by simpa using grp.inside)] at hprefix
          have hnil : rest.takeWhile
              (ObjectPage.InPage (self.page j).data c.pgNum ·) = [] := by
            cases rest with
            | nil => rfl
            | cons z rest => exact List.takeWhile_cons_of_neg (by simpa using grp.stop z rfl)
          rwa [hnil, List.append_nil] at hprefix
        cases fuel with
        | zero => exact absurd hcall.symm (Option.some_ne_none _)
        | succ fuel =>
            have hrest : SCAllocator.deallocateWhile B resArray count (fuel + 1) self₁ h₁
                (deallocated + t) = some (self', h') := hcall
            rw [SCAllocator.deallocateWhile, if_neg (by omega)] at hrest
            obtain ⟨⟩ := Option.some.inj hrest
            omega

/-- The call returns, and afterwards the allocator is in order with exactly the first
`min(count_p, res_array.len())` entries marked free. -/
def FreesExactly (B : PageBackend σ) (s : State σ) (resArray : List Nat) (countP : Nat) : Prop :=
  ∃ slab heap, s.slab.deallocateBatch B s.heap resArray countP = some (slab, heap) ∧
    ∃ rings, WellShaped
      ⟨slab, heap, s.out - (resArray.take (min countP resArray.length) : Multiset Nat)⟩ rings

/-- A batch is freed exactly if the next entry does not lie in the run of the page of its last
one. -/
theorem freesExactly_iff {sizeClass numOsPages : Nat} {mem : Mem} {back : σ} {tr : List Event}
    (law : Lawful B Holds) (hsize : 0 < sizeClass) (hle : sizeClass ≤ PAGE_SIZE * numOsPages)
    (fits : ∀ {back mem tree held ptr r}, Holds back mem tree held →
      B.alloc back mem tree (PAGE_SIZE * numOsPages) = some (ptr, r) → RadixFits ⟨ptr, numOsPages⟩)
    (start : Holds back mem TreeNode.zeroed ∅)
    (run : Run (Step B) (State.new sizeClass numOsPages mem back) tr s)
    {resArray : List Nat} {countP : Nat}
    (nodup : (resArray.take (min countP resArray.length)).Nodup)
    (out : ∀ x ∈ resArray.take (min countP resArray.length), x ∈ s.out) :
    FreesExactly B s resArray countP ↔ min countP resArray.length = 0 ∨
      EndsApart (configOf sizeClass numOsPages) s.slab resArray (min countP resArray.length) := by
  have grants : Grants B Holds (configOf sizeClass numOsPages) := fun holds halloc =>
    fits holds halloc
  obtain ⟨R, rep⟩ := represented_run law grants (represented_new hsize hle start) run
  have hout : ∀ x ∈ resArray.take (min countP resArray.length),
      Out (configOf sizeClass numOsPages) s.slab x := fun x hx => (rep.out x).mp (out x hx)
  constructor
  · rintro ⟨slab, heap, hcall, rings, shaped⟩
    by_contra hnot
    rw [not_or] at hnot
    obtain ⟨hpos, hjoined⟩ := hnot
    rw [EndsApart] at hjoined
    push Not at hjoined
    obtain ⟨x, hx, y, hy, run⟩ := hjoined
    rw [SCAllocator.deallocateBatch, if_neg hpos] at hcall
    have hmore := rep.settled.deallocateWhile_total law (Nat.pos_of_ne_zero hpos) hx hy run nodup
      hout hcall
    have hcard : (s.out - (resArray.take (min countP resArray.length) : Multiset Nat)).card =
        s.out.card - min countP resArray.length := by
      rw [Multiset.card_sub, Multiset.coe_card, List.length_take, Nat.min_eq_left
        (Nat.min_le_right _ _)]
      exact (Multiset.le_iff_subset (Multiset.coe_nodup.mpr nodup)).mpr out
    have hle := rep.total_le law
    have hge := shaped.card_le
    dsimp only at hge
    omega
  · intro hend
    obtain ⟨slab, heap, R', hcall, settled, returns⟩ :=
      rep.settled.deallocateBatch_spec law resArray countP nodup hout hend
    exact ⟨slab, heap, hcall, R', (rep.returns settled returns).wellShaped law⟩

/-- Three chunks of a page are out, two of them come back, and the array ends with an address
outside the page. -/
theorem freesExactly_iff_three :
    let s := Path.last (State.new 1024 1 (fun _ => 0) (0x1000000, 0x2000000))
      (play (State.move Slab.carving)
        (State.new 1024 1 (fun _ => 0) (0x1000000, 0x2000000)) [Move.allocateBatchV2 [0, 0, 0] 3])
    FreesExactly Slab.carving s [0x1fff400, 0x1fff000, 0x1ffe000] 2 ↔
      2 = 0 ∨ EndsApart (configOf 1024 1) s.slab [0x1fff400, 0x1fff000, 0x1ffe000] 2 :=
  freesExactly_iff Slab.carving_lawful (by decide : 0 < 1024) (by decide : 1024 ≤ PAGE_SIZE * 1)
    (fun _ _ => Slab.radixFits_of_le (by decide : 1 ≤ 4097)) Slab.carved_region
    (play_path (fun h => State.move_step h) _ [Move.allocateBatchV2 [0, 0, 0] 3]).run
    (by decide) (by decide +kernel)

/-- Two chunks of a page are out. -/
def twoOut : State (Nat × Nat) :=
  Path.last (State.new 1024 1 (fun _ => 0) (0x1000000, 0x2000000))
    (play (State.move Slab.carving)
      (State.new 1024 1 (fun _ => 0) (0x1000000, 0x2000000)) [Move.allocateBatchV2 [0, 0] 2])

/-- The first of the two is given back, but the second one stands behind it in the array, and
the page counts none afterwards. -/
theorem next_entry_freed :
    ¬∀ (s : State (Nat × Nat)) (tr : List Event), Run (Step Slab.carving)
      (State.new 1024 1 (fun _ => 0) (0x1000000, 0x2000000)) tr s →
        ∀ (resArray : List Nat) (countP : Nat),
          (resArray.take (min countP resArray.length)).Nodup →
          (∀ x ∈ resArray.take (min countP resArray.length), x ∈ s.out) →
            FreesExactly Slab.carving s resArray countP := by
  intro always
  obtain ⟨slab, heap, hcall, rings, shaped⟩ := always twoOut _
    (play_path (fun h => State.move_step h) _ [Move.allocateBatchV2 [0, 0] 2]).run
    [0x1fff000, 0x1fff400] 1 (by decide) (by decide +kernel)
  have hzero : ∀ r ∈ twoOut.slab.deallocateBatch Slab.carving twoOut.heap [0x1fff000, 0x1fff400] 1,
      r.1.total = 0 := by decide +kernel
  have hleft : (twoOut.out - (([0x1fff000, 0x1fff400] : List Nat).take
      (min 1 ([0x1fff000, 0x1fff400] : List Nat).length) : Multiset Nat)).card = 1 := by
    decide +kernel
  have hcard := shaped.card_le
  rw [hleft, hzero _ hcall] at hcard
  exact absurd hcard (by decide)

end UniAlloc.Separate
