import UniAlloc.Slab.Single

/-!
# Splicing chains into free lists

A chain of chunks comes back page by page. Each page takes the chunks up to the first that
lies outside its run and puts them in front of its free list, through the words of the
chunks themselves.
-/

namespace UniAlloc.Slab

open FreeList Radix Transition

variable {σ : Type} {B : PageBackend σ} {Holds : σ → Mem → RadixTree → Set Block → Prop}

/-- Every page takes its part of a chain in front of its free list, and every chain of chunks
that are out comes back in pieces, each node in exactly one of them, provided the runs that the
backend grants can be cleared. -/
theorem chain_spliced (law : Lawful B Holds) :
    (∀ (c : Config) (page : ObjectPage) (mem : Mem) (free chain : List Nat) (head : Nat),
      page.data ≠ 0 → Busy c mem page free → Segment mem head chain 0 → chain.Nodup →
      page.InRun c.pgNum head →
      (∀ x ∈ chain, page.InRun c.pgNum x → x ∈ c.chunks page.data ∧ x ∉ free) →
      ∃ taken post, chain = taken ++ post ∧ page.Splices c mem free head taken post) ∧
    ∀ (sizeClass numOsPages : Nat) (mem : Mem) (back : σ) (tr : List Event) (s : State σ),
      8 ≤ sizeClass → sizeClass ≤ PAGE_SIZE * numOsPages →
      (∀ {back mem tree held ptr r}, Holds back mem tree held →
        B.alloc back mem tree (PAGE_SIZE * numOsPages) = some (ptr, r) →
          RemoveFits ⟨ptr, numOsPages⟩) →
      Holds back mem TreeNode.zeroed ∅ →
      Run (Step B) (State.new sizeClass numOsPages mem back) tr s →
      ∀ chain head, Segment s.heap.mem head chain 0 → chain.Nodup → (∀ x ∈ chain, x ∈ s.out) →
      ∃ pieces slab heap, pieces.flatten = chain ∧
        Rounds B s.slab s.heap head pieces slab heap ∧
        (∃ rings, WellShaped ⟨slab, heap, s.out - chain⟩ rings) ∧
        ∀ fuel, chain.length ≤ fuel →
          SCAllocator.deallocateBatch B fuel s.slab s.heap head = some (slab, heap) := by
  refine ⟨fun c page mem free chain head hdata busy linked nodup hhead out =>
    ObjectPage.deallocate_spec hdata busy linked nodup hhead out, ?_⟩
  intro sizeClass numOsPages mem back tr s hsize hle fits start run chain head linked nodup out
  obtain ⟨Holds', law', clears, hnew, -⟩ := exists_clears law fits
  rw [← pgNum_new numOsPages hsize] at clears
  obtain ⟨g, rep⟩ := represented_run law' (sized_new hsize hle)
    (represented_new sizeClass numOsPages (hnew start)) run
  obtain ⟨pieces, slab, heap, g', rfl, rounds, rep'⟩ :=
    (rep.rounds law' linked nodup out).resolve_right fun h => h.2 clears
  refine ⟨pieces, slab, heap, rfl, rounds, ⟨_, rep'.wellShaped law'⟩, fun fuel hfuel => ?_⟩
  exact rounds.deallocateBatch (rounds.length_le.trans hfuel)

/-- Two of four chunks are about to come back. -/
def twoOut : State (Nat × Nat) :=
  Path.last (State.new 1024 1 (fun _ => 0) (0x1000000, 0x2000000))
    (play (State.move carving) (State.new 1024 1 (fun _ => 0) (0x1000000, 0x2000000))
      (fourChunks.take 3))

theorem chain_spliced_two :
    ∃ pieces slab heap, pieces.flatten = [0x1fff000, 0x1fff800] ∧
      Rounds carving twoOut.slab twoOut.heap 0x1fff000 pieces slab heap ∧
      (∃ rings, WellShaped ⟨slab, heap, twoOut.out - ↑[0x1fff000, 0x1fff800]⟩ rings) ∧
      ∀ fuel, 2 ≤ fuel → SCAllocator.deallocateBatch carving fuel twoOut.slab twoOut.heap
        0x1fff000 = some (slab, heap) :=
  (chain_spliced carving_lawful).2 1024 1 _ _ _ twoOut (by decide) (by decide)
    (fun _ _ => (radixFits_of_le (by decide : 1 ≤ 4097)).2) carved_region
    (play_path (fun h => State.move_step carving h) _ (fourChunks.take 3)).run
    [0x1fff000, 0x1fff800] 0x1fff000 (by decide +kernel) (by decide) (by decide +kernel)

/-- Without a condition on the runs that the backend grants. -/
def AlwaysSpliced (B : PageBackend σ) (Holds : σ → Mem → RadixTree → Set Block → Prop) : Prop :=
  ∀ (sizeClass numOsPages : Nat) (mem : Mem) (back : σ) (tr : List Event) (s : State σ),
    8 ≤ sizeClass → sizeClass ≤ PAGE_SIZE * numOsPages → Holds back mem TreeNode.zeroed ∅ →
    Run (Step B) (State.new sizeClass numOsPages mem back) tr s →
    ∀ chain head, Segment s.heap.mem head chain 0 → chain.Nodup → (∀ x ∈ chain, x ∈ s.out) →
      ∃ pieces slab heap, pieces.flatten = chain ∧
        Rounds B s.slab s.heap head pieces slab heap

/-- One chunk of `4098` pages in every run. -/
def wide : State (Nat × Nat) :=
  State.new (PAGE_SIZE * 4098) 4098 (fun _ => 0) (PAGE_SIZE, PAGE_SIZE * 10485761)

/-- The first run starts `4097` pages before a multiple of `2 ^ 18` pages. -/
def firstChunk : Nat := PAGE_SIZE * 10481663

namespace Wide

/-- The parameters of the allocator. -/
def config : Config := Config.of (SCAllocator.new (PAGE_SIZE * 4098) 4098)

theorem count_eq : config.count = 1 := by decide +kernel

theorem size_le : 8 ≤ PAGE_SIZE * 4098 := by norm_num [PAGE_SIZE]

theorem pgNum_eq : config.pgNum = 4098 := pgNum_new _ size_le

theorem insertFits (ptr : Nat) : InsertFits (config.run ptr) := by
  simp only [InsertFits, PieceFits, Config.run, pgNum_eq]
  omega

theorem misfit : ¬RemoveFits (config.run firstChunk) := by
  have hfirst : firstChunk / PAGE_SIZE = 10481663 := Nat.mul_div_cancel_left _ (by decide)
  simp only [RemoveFits, PieceFits, Config.run, pgNum_eq, hfirst]
  omega

theorem sized : config.Sized := sized_new size_le le_rfl

theorem represented {tr : List Event} {s : State (Nat × Nat)}
    (run : Run (Step carving) wide tr s) : ∃ g, Represented Carved config s g :=
  represented_run carving_lawful sized
    (represented_new _ _ (carved_empty _ (by decide) (by decide))) run

/-- Where the regions of the descriptors of `n` pages end. -/
def descs (n : Nat) : Nat := 0x100000000000 + n * PageBumpAlloc.DEFAULT_SIZE

/-- Where the last of `n` runs begins. -/
def bottom (n : Nat) : Nat := PAGE_SIZE * (10485761 - 4098 * n)

/-- The backend has room for `2050` runs. -/
theorem alloc_eq {n : Nat} (hn : n < 2050) (mem : Mem) (tree : RadixTree) :
    carving.alloc (PAGE_SIZE, bottom n) mem tree (PAGE_SIZE * config.pgNum) =
      some (bottom (n + 1), (PAGE_SIZE, bottom (n + 1)), mem, tree) := by
  have hnext : bottom n - PAGE_SIZE * 4098 = bottom (n + 1) := by
    simp only [bottom, PAGE_SIZE]
    omega
  rw [pgNum_eq, ← hnext]
  apply if_pos
  simp only [bottom, PAGE_SIZE]
  omega

/-- The chunks of the first `n` runs are out. -/
structure Taken (s : State (Nat × Nat)) (n : Nat) : Prop where
  run : ∃ tr, Run (Step carving) wide tr s
  created : s.heap.created.length = n
  card : s.out.card = n
  uninit : s.slab.uninitStart = 0
  first : n = 0 ∨ firstChunk ∈ s.out
  back : s.heap.back = (PAGE_SIZE, bottom n)
  fresh : ∀ d ∈ s.heap.created, d < descs n
  bump : s.heap.pgBump.current ≤ descs n

theorem bump_le {bump bump' : PageBumpAlloc} {n d : Nat} (h : bump.current ≤ descs n)
    (halloc : bump.alloc OBJECT_PAGE_SIZE (descs n) = some (bump', d)) :
    bump'.current = d ∧ d < descs (n + 1) := by
  obtain ⟨-, halloc⟩ := Option.ite_none_right_eq_some.mp halloc
  cases halloc
  refine ⟨rfl, ?_⟩
  simp only [descs, PageBumpAlloc.DEFAULT_SIZE, OBJECT_PAGE_SIZE, PAGE_SIZE] at h ⊢
  split
  · simp only
    omega
  · omega

theorem Taken.freshDescs {s : State (Nat × Nat)} {n : Nat} (taken : Taken s n) (hn : n < 2050) :
    FreshDescs s.heap.created (descs n) where
  pos := by
    simp only [descs]
    omega
  bound := by
    simp only [descs, PageBumpAlloc.DEFAULT_SIZE, OBJECT_PAGE_SIZE, PAGE_SIZE]
    omega
  fresh d hd := .inl (taken.fresh d hd)

/-- All pages are full. -/
theorem Taken.starts {s : State (Nat × Nat)} {n : Nat} (taken : Taken s n) {g : Ghost Unit}
    (rep : Represented Carved config s g) : s.slab.partialStart = 0 ∧ s.slab.emptyStart = 0 := by
  have hempty : s.slab.emptyCount = 0 := by
    have := rep.emptyCount_single carving_lawful count_eq taken.uninit
    rw [taken.created, taken.card] at this
    omega
  constructor
  · apply (rep.inv.threads.start_eq_null_iff ((), .partially)).mpr
    exact rep.partially_single count_eq
  · apply (rep.inv.threads.start_eq_null_iff ((), .empty)).mpr
    exact List.eq_nil_of_length_eq_zero ((rep.inv.emptyCount ()).symm.trans hempty)

/-- No page is at hand, so that the next chunk comes with a new page. -/
theorem take_once {s : State (Nat × Nat)} {n : Nat} (taken : Taken s n) (hn : n < 2050) :
    ∃ s', Taken s' (n + 1) := by
  obtain ⟨tr, run⟩ := taken.run
  obtain ⟨g, rep⟩ := represented run
  obtain ⟨hp, he⟩ := taken.starts rep
  have hs : ¬(s.slab.partialStart ≠ 0 ∧ 1 = 1) := fun h => h.1 hp
  have fresh := taken.freshDescs hn
  have halloc := alloc_eq hn s.heap.mem s.heap.tree
  rw [← taken.back] at halloc
  obtain ⟨slab, heap, g', hcall, inv', granted⟩ := allocate_new carving_lawful rep.inv (k := ())
    (sized.sound (insertFits 0)) hs he (fun _ _ => fresh) halloc (insertFits _)
  obtain ⟨huninit, ⟨d, hbump, hcreated⟩, ptr, mem, tree, hback⟩ :=
    allocateBatchV2_new hs he taken.uninit hcall
  rw [(rep.inv.configured ()).pgNum, halloc] at hback
  have hhanded : handed heap.mem (bottom (n + 1), config.count, some config.align) =
      [bottom (n + 1)] :=
    granted.handed_eq.trans (Config.chunks_single count_eq _)
  obtain ⟨hcurrent, hlt⟩ := bump_le taken.bump hbump
  have hmono : descs n ≤ descs (n + 1) :=
    Nat.add_le_add_left (Nat.mul_le_mul_right _ (Nat.le_succ n)) _
  have hstep := Step.allocate 1 (descs n) (fun _ => fresh) hcall
  rw [hhanded] at hstep
  refine ⟨_, ⟨_, run.snoc hstep⟩, ?_, ?_, huninit, .inr ?_, ?_, ?_, ?_⟩
  · rw [hcreated, List.length_cons, taken.created]
  · rw [Multiset.card_add, taken.card, Multiset.coe_card, List.length_singleton, Nat.add_comm]
  · obtain rfl | hfirst := taken.first
    · exact Multiset.mem_add.mpr (.inl (List.mem_singleton_self _))
    · exact Multiset.mem_add.mpr (.inr hfirst)
  · simp only [Option.some.injEq, Prod.mk.injEq] at hback
    exact hback.2.1.symm
  · intro d' hd'
    rw [hcreated] at hd'
    obtain rfl | hd' := List.mem_cons.mp hd'
    · exact hlt
    · exact (taken.fresh d' hd').trans_le hmono
  · rw [hcurrent]
    exact hlt.le

theorem exists_taken (n : Nat) (hn : n ≤ 2050) : ∃ s, Taken s n := by
  induction n with
  | zero => exact ⟨wide, ⟨_, .nil⟩, rfl, rfl, rfl, .inl rfl, rfl, by simp [wide, State.new, Heap.new],
      Nat.zero_le _⟩
  | succ n ih =>
      obtain ⟨s, taken⟩ := ih (by omega)
      exact take_once taken (by omega)

/-- Of `2050` chunks `m` are still out, among them the first. -/
structure Left (s : State (Nat × Nat)) (m : Nat) : Prop where
  run : ∃ tr, Run (Step carving) wide tr s
  created : s.heap.created.length = 2050
  card : s.out.card = m
  uninit : s.slab.uninitStart = 0
  first : firstChunk ∈ s.out

theorem Left.emptyCount {s : State (Nat × Nat)} {m : Nat} (left : Left s m) {g : Ghost Unit}
    (rep : Represented Carved config s g) : s.slab.emptyCount + m = 2050 := by
  rw [← left.card, ← left.created]
  exact rep.emptyCount_single carving_lawful count_eq left.uninit

/-- The page of the chunk goes to the empty ring. -/
theorem return_once {s : State (Nat × Nat)} {m : Nat} (left : Left s (m + 2)) :
    ∃ s', Left s' (m + 1) := by
  obtain ⟨tr, run⟩ := left.run
  obtain ⟨g, rep⟩ := represented run
  have nodup : s.out.Nodup := rep.out ▸ Finset.nodup _
  have hcard := Multiset.card_erase_of_mem left.first
  obtain ⟨x, hx⟩ := Multiset.card_pos_iff_exists_mem.mp
    (show 0 < (s.out.erase firstChunk).card by rw [hcard, left.card]; exact Nat.succ_pos _)
  obtain ⟨hne, hx⟩ := nodup.mem_erase_iff.mp hx
  obtain ⟨hclear, rep₁⟩ := rep.cleared carving_lawful hx
  have hcount := left.emptyCount rep
  obtain ⟨s', g', hstep, -, hout, huninit, hcreated⟩ :=
    rep₁.deallocate_single carving_lawful hx (Function.update_self _ _ _)
      (show s.slab.emptyCount ≤ 2048 by omega)
  refine ⟨s', ⟨_, (run.snoc hclear).snoc hstep⟩, hcreated ▸ left.created, ?_,
    huninit.trans left.uninit, ?_⟩
  · rw [hout, Multiset.sub_singleton, Multiset.card_erase_of_mem hx]
    exact congrArg Nat.pred left.card
  · rw [hout, Multiset.sub_singleton]
    exact (Multiset.mem_erase_of_ne hne.symm).mpr left.first

theorem exists_left (m : Nat) (hm : m < 2050) : ∃ s, Left s (2050 - m) := by
  induction m with
  | zero =>
      obtain ⟨s, taken⟩ := exists_taken 2050 le_rfl
      exact ⟨s, taken.run, taken.created, taken.card, taken.uninit,
        taken.first.resolve_left (by decide)⟩
  | succ m ih =>
      obtain ⟨s, left⟩ := ih (by omega)
      rw [show 2050 - m = (2048 - m) + 2 by omega] at left
      rw [show 2050 - (m + 1) = (2048 - m) + 1 by omega]
      exact return_once left

end Wide

/-- With `2049` empty pages the page of the first chunk is to be given back, and its run cannot
be cleared. -/
theorem wide_run_kept :
    (∃ tr s, Run (Step carving) wide tr s ∧ Segment s.heap.mem firstChunk [firstChunk] 0 ∧
      firstChunk ∈ s.out ∧
      ∀ fuel, SCAllocator.deallocateBatch carving fuel s.slab s.heap firstChunk = none) ∧
    ¬AlwaysSpliced carving Carved := by
  obtain ⟨s, left⟩ := Wide.exists_left 2049 (by decide)
  obtain ⟨tr, run⟩ := left.run
  obtain ⟨g, rep⟩ := Wide.represented run
  obtain ⟨hclear, rep₁⟩ := rep.cleared carving_lawful left.first
  have hcount := left.emptyCount rep
  have hmem : Function.update s.heap.mem firstChunk 0 firstChunk = 0 := Function.update_self _ _ _
  have hhead := rep₁.deallocateHead_single carving_lawful Wide.count_eq left.first hmem
    (show 2048 < s.slab.emptyCount by omega) Wide.misfit
  have hne : firstChunk ≠ 0 := by decide
  have hnone : ∀ fuel, SCAllocator.deallocateBatch carving fuel s.slab
      { s.heap with mem := Function.update s.heap.mem firstChunk 0 } firstChunk = none := by
    intro fuel
    cases fuel with
    | zero => exact if_neg hne
    | succ fuel =>
        rw [SCAllocator.deallocateBatch, if_neg hne, hhead]
        rfl
  refine ⟨⟨_, _, run.snoc hclear, ⟨rfl, hmem⟩, left.first, hnone⟩, fun always => ?_⟩
  obtain ⟨pieces, slab, heap, -, rounds⟩ := always _ _ _ _ _ _ Wide.size_le le_rfl
    (carved_empty _ (by decide) (by decide)) (run.snoc hclear) [firstChunk] firstChunk
    ⟨rfl, hmem⟩ (List.nodup_singleton _) (fun x hx => List.mem_singleton.mp hx ▸ left.first)
  cases (hnone _).symm.trans (rounds.deallocateBatch le_rfl)

end UniAlloc.Slab
