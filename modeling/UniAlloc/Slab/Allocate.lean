import UniAlloc.Slab.InHand

/-!
# Handing out batches

`allocate_batch_v2` empties a partially used page, or an empty one, or a page that
it gets from the backend, and moves the page to the full ring. In each case the
chunks that leave were not out before.
-/

namespace UniAlloc.Slab

open FreeList Radix

variable {κ σ : Type}

/-- What is assumed of `mmap`: a region of user space without earlier descriptors. -/
structure FreshDescs (created : List Nat) (mapped : Nat) : Prop where
  pos : 0 < mapped
  bound : mapped + PageBumpAlloc.DEFAULT_SIZE ≤ 2 ^ 47
  fresh : ∀ d ∈ created, d < mapped ∨ mapped + PageBumpAlloc.DEFAULT_SIZE ≤ d

instance (created : List Nat) (mapped : Nat) : Decidable (FreshDescs created mapped) :=
  decidable_of_iff (0 < mapped ∧ mapped + PageBumpAlloc.DEFAULT_SIZE ≤ 2 ^ 47 ∧
      ∀ d ∈ created, d < mapped ∨ mapped + PageBumpAlloc.DEFAULT_SIZE ≤ d)
    ⟨fun ⟨pos, bound, fresh⟩ => ⟨pos, bound, fresh⟩, fun ⟨pos, bound, fresh⟩ => ⟨pos, bound, fresh⟩⟩

theorem PageBumpAlloc.alloc_spec {bump : PageBumpAlloc} {created : List Nat} {mapped : Nat}
    (h : bump.Ok created) (fresh : bump.Exhausted → FreshDescs created mapped) :
    ∃ bump' d, bump.alloc OBJECT_PAGE_SIZE mapped = some (bump', d) ∧ d ≠ 0 ∧ d ∉ created ∧
      d < 2 ^ 47 ∧ bump'.Ok (d :: created) := by
  obtain ⟨⟨hle, hsize⟩, whole, pos, bound, used⟩ := h
  simp only [Exhausted, DEFAULT_SIZE, OBJECT_PAGE_SIZE, PAGE_SIZE] at fresh hsize whole
  by_cases hex : bump.Exhausted
  · obtain ⟨hpos, hbound, hfresh⟩ := fresh hex
    simp only [DEFAULT_SIZE, OBJECT_PAGE_SIZE, PAGE_SIZE] at hbound hfresh
    have hnew : mapped + 40 * 4096 - 40 ∉ created := fun hd => by
      have := hfresh _ hd
      omega
    refine ⟨⟨mapped, mapped + 40 * 4096 - 40⟩, mapped + 40 * 4096 - 40, ?_, by omega, hnew,
      by omega, ⟨⟨?_, ?_⟩, ?_, ?_, ?_, ?_⟩⟩
    · simp [PageBumpAlloc.alloc, hex, DEFAULT_SIZE, OBJECT_PAGE_SIZE, PAGE_SIZE]
    all_goals simp only [DEFAULT_SIZE, OBJECT_PAGE_SIZE, PAGE_SIZE, List.mem_cons]
    all_goals first
      | omega
      | (rintro d (rfl | hd)
         · omega
         · have := hfresh d hd
           omega)
  · have hlt : bump.start < bump.current := by
      simp only [Exhausted, not_or] at hex
      omega
    have hnew : bump.current - 40 ∉ created := fun hd => by
      have := used _ hd
      omega
    have := pos hlt
    refine ⟨⟨bump.start, bump.current - 40⟩, bump.current - 40, ?_, by omega, hnew,
      by omega, ⟨⟨?_, ?_⟩, ?_, ?_, ?_, ?_⟩⟩
    · simp [PageBumpAlloc.alloc, hex, OBJECT_PAGE_SIZE]
    all_goals simp only [DEFAULT_SIZE, OBJECT_PAGE_SIZE, PAGE_SIZE, List.mem_cons]
    all_goals first
      | omega
      | (rintro d (rfl | hd)
         · omega
         · have := used d hd
           omega)

/-- The chunks `l` leave allocator `k`. They are linked, or lie in a row. -/
structure Granted [DecidableEq κ] (cfg : κ → Config) (h h' : Heap σ) (g g' : Ghost κ) (k : κ)
    (ptr n : Nat) (stride : Option Nat) (l : List Nat) : Prop where
  out : g'.out = Function.update g.out k (g.out k ∪ l.toFinset)
  fresh : ∀ x ∈ l, x ∉ g.out k
  nodup : l.Nodup
  length : l.length = n
  pos : 0 < n
  linked : stride = none → Segment h'.mem ptr l 0
  row : ∀ a, stride = some a → a = (cfg k).align ∧ l = (cfg k).chunks ptr
  frame : ∀ a, HeldPage (runs cfg h.desc g) (a / PG_SIZE) → h'.mem a = h.mem a

section Sources

variable [DecidableEq κ] {cfg : κ → Config} {Holds : σ → Mem → RadixTree → Set Block → Prop}
  {B : PageBackend σ} {slabs : κ → SCAllocator} {h h₁ : Heap σ} {g : Ghost κ} {k : κ} {d : Nat}
  {self₁ : SCAllocator} {R : κ × Kind → List Nat} {l : List Nat}

/-- A descriptor all of whose chunks leave is put on the full ring. -/
theorem InHand.fill (hand : InHand cfg slabs h g k d self₁ h₁ R) (law : Lawful B Holds)
    (inv : Inv cfg Holds slabs h g) (ok : (cfg k).Ok)
    (counter : (h₁.desc d).counter = (cfg k).count) (ptr : (h₁.desc d).ptr = 0)
    (mem : ∀ k' d', d' ≠ d → g.Mapped k' d' → ∀ a,
      a / PG_SIZE ∈ ((cfg k').run (h.desc d').data).pages → h₁.mem a = h.mem a)
    (holds : Holds h₁.back h₁.mem h₁.tree
      (insert ((cfg k).run (h₁.desc d).data) (otherRuns cfg h.desc g d)))
    (entry : ∀ k' d', d' ≠ d → g.Mapped k' d' →
      ∀ p ∈ ((cfg k').run (h.desc d').data).pages, h₁.tree.entry p = h.tree.entry p)
    (entryHere : ∀ p ∈ ((cfg k).run (h₁.desc d).data).pages, h₁.tree.entry p = d)
    (hl : ∀ x, x ∈ (cfg k).chunks (h₁.desc d).data ↔ x ∈ l ∨ IsOut cfg h.desc g k d x) :
    ∃ self' h' g', self₁.insertFull h₁ d = some (self', h') ∧
      Inv cfg Holds (Function.update slabs k self') h' g' ∧
      g'.out = Function.update g.out k (g.out k ∪ l.toFinset) ∧ h'.mem = h₁.mem := by
  obtain ⟨desc, s, hput, threads, core⟩ := hand.put .full
  obtain ⟨hcounter, hdata, hptr⟩ : (desc d).counter = (h₁.desc d).counter ∧
      (desc d).data = (h₁.desc d).data ∧ (desc d).ptr = (h₁.desc d).ptr := by
    simpa [ObjectPage.core] using core d
  have placed := law.placed holds (Set.mem_insert _ _)
  let g' : Ghost κ := ⟨putRing R k .full d, Function.update g.free d [],
    Function.update g.out k (g.out k ∪ l.toFinset)⟩
  have hin : g'.InUse k d := .inl ((hand.put_here _).mpr rfl)
  have isOut : ∀ x, IsOut cfg desc g' k d x ↔ x ∈ (cfg k).chunks (h₁.desc d).data := by
    intro x
    rw [← hdata]
    exact ⟨fun hx => hx.chunk, fun hx => ⟨hin, hx, by simp [g']⟩⟩
  have move : Moves cfg h { h₁ with desc } g g' k .full d := by
    refine ⟨fun d' hd => hand.put_others hd, hand.put_here,
      fun d' hd => (core d').trans (hand.core d' hd), fun d' hd => Function.update_of_ne hd _ _,
      mem, ?_, fun k' hk => Function.update_of_ne hk _ _, fun x => ?_⟩
    · refine ⟨?_, ⟨?_, ?_, ?_, ?_, ?_⟩, ?_⟩
      · rw [hdata]
        exact placed.pos.ne'
      · rw [hcounter, counter]
        exact ok.count_pos
      all_goals simp only [g', Function.update_self]
      · rw [hcounter, counter]
        rfl
      · exact List.nodup_nil
      · simp
      · rw [hptr, ptr]
        rfl
    · simp only [isOut, hl, g', Function.update_self, Finset.mem_union, List.mem_toFinset]
      constructor
      · rintro (hx | hx)
        · by_cases hout : IsOut cfg h.desc g k d x
          · exact .inr (.inr hout)
          · exact .inl ⟨hx, hout⟩
        · exact .inr (.inl hx)
      · rintro (⟨hx, -⟩ | hx | hx)
        · exact .inl hx
        · exact .inr hx
        · exact .inl (inv.out.mpr ⟨d, hx⟩)
  refine ⟨_, { h₁ with desc }, g', hput, ?_, rfl, rfl⟩
  refine hand.inv law inv ok move rfl threads (hand.configured.setStart _ _) ?_ rfl rfl ?_ entry ?_
  · exact SCAllocator.emptyCount_setStart _ _ _
  · rw [move.runs_eq (by decide)]
    show Holds _ _ _ (insert ((cfg k).run (desc d).data) _)
    rw [hdata]
    exact holds
  · intro _ p hp
    simp only [hdata] at hp
    exact entryHere p hp

omit [DecidableEq κ] in
/-- No chunk of a page is out unless the page is on one of the first two rings. -/
theorem not_isOut (inv : Inv cfg Holds slabs h g) {kind : Kind} (hd : d ∈ g.rings (k, kind))
    (hfull : kind ≠ .full) (hpart : kind ≠ .partially) (x : Nat) :
    ¬IsOut cfg h.desc g k d x := by
  rintro ⟨hin | hin, -, -⟩
  · exact hfull (congrArg Prod.snd (inv.threads.apart hd hin))
  · exact hpart (congrArg Prod.snd (inv.threads.apart hd hin))

/-- A partially used page hands out its free list. -/
theorem allocate_partial (law : Lawful B Holds) (inv : Inv cfg Holds slabs h g)
    (hs : (slabs k).partialStart ≠ 0) (mapped : Nat) :
    ∃ self' h' ptr n g' l, (slabs k).allocateBatchV2 B h 1 mapped = some (self', h', ptr, n, none) ∧
      Inv cfg Holds (Function.update slabs k self') h' g' ∧
      Granted cfg h h' g g' k ptr n none l := by
  generalize hd : (slabs k).partialStart = d at hs
  have hmem : d ∈ g.rings (k, .partially) := by
    have := inv.threads.start_mem (i := (k, .partially)) (by rwa [starts, SCAllocator.start, hd])
    rwa [starts, SCAllocator.start, hd] at this
  have hmap : g.Mapped k d := ⟨.partially, by decide, hmem⟩
  obtain ⟨hdata, busy, hne⟩ := inv.page hmem
  have hconf := inv.configured k
  let page : ObjectPage := { h.desc d with counter := (cfg k).count, ptr := 0 }
  have hall : (h.desc d).allocateAll (asUsize (slabs k).pgCount) (asUsize (slabs k).pgAlign) =
      (page, (h.desc d).ptr, (cfg k).count - (h.desc d).counter, none) := by
    rw [ObjectPage.allocateAll, if_neg busy.pos.ne', hconf.count]
  let h₀ : Heap σ := { h with desc := Function.update h.desc d page }
  have links : ∀ p, (h₀.desc p).prev = (h.desc p).prev ∧ (h₀.desc p).next = (h.desc p).next :=
    update_links h.desc d page rfl rfl
  have threads₀ : h₀.desc.Threads (starts (Function.update slabs k (slabs k))) g.rings := by
    rw [Function.update_eq_self]
    exact inv.threads.congr fun _ p _ => links p
  obtain ⟨desc, s, hremove, threads, core⟩ := removeFrom_spec threads₀ hmem
  have core₀ : ∀ p ≠ d, (desc p).core = (h.desc p).core := fun p hp => by
    rw [core]
    exact congrArg ObjectPage.core (Function.update_of_ne hp _ _)
  have hand := InHand.of_remove inv hmem (hconf.setStart _ s) threads core₀ (by simp)
  obtain ⟨hcounter, hdata', hptr⟩ : (desc d).counter = (cfg k).count ∧
      (desc d).data = (h.desc d).data ∧ (desc d).ptr = 0 := by
    have := core d
    simpa [ObjectPage.core, h₀, page] using this
  have notOut : ∀ x ∈ g.free d, x ∉ g.out k := fun x hx hout => by
    obtain ⟨d', hd'⟩ := inv.out.mp hout
    have := inv.page_unique law hd'.inUse.mapped hmap hd'.chunk (busy.sub x hx)
    exact hd'.notFree (this ▸ hx)
  obtain ⟨self', h', g', hinsert, inv', hout, hmem'⟩ := hand.fill (l := g.free d) law inv
    (inv.ok hmap) hcounter hptr (fun _ _ _ _ _ _ => rfl)
    (by
      show Holds _ _ _ (insert ((cfg k).run (desc d).data) _)
      rw [hdata', ← inv.runs_eq hmap]
      exact inv.holds)
    (fun _ _ _ _ _ _ => rfl)
    (by
      show ∀ p ∈ ((cfg k).run (desc d).data).pages, _
      rw [hdata']
      exact inv.entry hmap)
    (fun x => by
      show x ∈ (cfg k).chunks (desc d).data ↔ _
      rw [hdata']
      by_cases hx : x ∈ g.free d
      · simp only [hx, true_or, iff_true]
        exact busy.sub x hx
      · simp only [hx, false_or]
        exact ⟨fun hc => ⟨.inr hmem, hc, hx⟩, fun hc => hc.chunk⟩)
  refine ⟨self', h', (h.desc d).ptr, (cfg k).count - (h.desc d).counter, g', g.free d, ?_, inv',
    hout, notOut, busy.nodup, ?_, ?_, fun _ => ?_,
    fun _ h => absurd h (Option.some_ne_none _).symm, fun a _ => by rw [hmem']⟩
  · rw [SCAllocator.allocateBatchV2, if_pos ⟨by rwa [hd], rfl⟩]
    simp only [hd, hall, SCAllocator.removePartial]
    show ((slabs k).removeFrom h₀ .partially d >>= _) = _
    rw [hremove]
    show ((SCAllocator.insertFull _ _ d) >>= _) = _
    rw [hinsert]
    rfl
  · have := busy.sum
    omega
  · have := busy.sum
    have := List.length_pos_of_ne_nil hne
    omega
  · rw [hmem']
    exact busy.chain

/-- An empty page hands out all its chunks. -/
theorem allocate_empty (law : Lawful B Holds) (inv : Inv cfg Holds slabs h g) {align : Nat}
    (hs : ¬((slabs k).partialStart ≠ 0 ∧ align = 1)) (he : (slabs k).emptyStart ≠ 0)
    (mapped : Nat) :
    ∃ self' h' ptr n g' l, (slabs k).allocateBatchV2 B h align mapped =
        some (self', h', ptr, n, some (cfg k).align) ∧
      Inv cfg Holds (Function.update slabs k self') h' g' ∧
      Granted cfg h h' g g' k ptr n (some (cfg k).align) l := by
  have threads₀ : h.desc.Threads (starts (Function.update slabs k (slabs k))) g.rings := by
    rw [Function.update_eq_self]
    exact inv.threads
  obtain ⟨hmem, desc, self₁, hremove, ⟨s, hself⟩, threads, core⟩ :=
    removeEmpty_spec threads₀ (inv.emptyCount k) he
  generalize hd : (slabs k).emptyStart = d at he hmem hremove threads
  have hmap : g.Mapped k d := ⟨.empty, by decide, hmem⟩
  have hconf : Configured (cfg k) self₁ := by
    obtain ⟨h₁, h₂, h₃⟩ := (inv.configured k).setStart .empty s
    exact hself ▸ ⟨h₁, h₂, h₃⟩
  have hand := InHand.of_remove inv hmem hconf threads (fun p _ => core p) (by rw [hself]; rfl)
  obtain ⟨hdata, hzero⟩ := inv.page hmem
  obtain ⟨hcounter', hdata', -⟩ : (desc d).counter = (h.desc d).counter ∧
      (desc d).data = (h.desc d).data ∧ (desc d).ptr = (h.desc d).ptr := by
    simpa [ObjectPage.core] using core d
  let page : ObjectPage := { desc d with counter := (cfg k).count, ptr := 0 }
  have hall : (desc d).allocateAll (asUsize self₁.pgCount) (asUsize self₁.pgAlign) =
      (page, (h.desc d).data, (cfg k).count, some (cfg k).align) := by
    rw [ObjectPage.allocateAll, if_pos (hcounter'.trans hzero), hconf.count, hconf.align, ← hdata']
  let h₁ : Heap σ := { h with desc := Function.update desc d page }
  have hpage : h₁.desc d = page := Function.update_self _ _ _
  have hdata₁ : (h₁.desc d).data = (h.desc d).data := by rw [hpage, ← hdata']
  have hand₁ : InHand cfg slabs h g k d self₁ h₁ _ := hand.congr
    (update_links desc d page rfl rfl)
    (fun p hp => congrArg ObjectPage.core (Function.update_of_ne hp _ _)) rfl rfl
  have notOut := not_isOut inv hmem (by decide) (by decide)
  obtain ⟨self', h', g', hinsert, inv', hout, hmem'⟩ := hand₁.fill
    (l := (cfg k).chunks (h.desc d).data) law inv (inv.ok hmap) (by rw [hpage]) (by rw [hpage])
    (fun _ _ _ _ _ _ => rfl)
    (by
      rw [hdata₁, ← inv.runs_eq hmap]
      exact inv.holds)
    (fun _ _ _ _ _ _ => rfl)
    (by
      rw [hdata₁]
      exact inv.entry hmap)
    (fun x => by
      rw [hdata₁]
      simp only [notOut, or_false])
  refine ⟨self', h', (h.desc d).data, (cfg k).count, g', (cfg k).chunks (h.desc d).data, ?_, inv',
    hout, fun x hx hout => ?_, (inv.ok hmap).nodup_chunks, Config.length_chunks,
    (inv.ok hmap).count_pos, fun h => absurd h (Option.some_ne_none _),
    fun a ha => ⟨(Option.some.inj ha).symm, rfl⟩,
    fun a _ => by rw [hmem']⟩
  · rw [SCAllocator.allocateBatchV2, if_neg hs, SCAllocator.getEmpty, if_pos (by rwa [hd]), hremove]
    simp only [Option.bind_eq_bind, Option.bind_some, hall]
    show (SCAllocator.insertFull _ h₁ d >>= _) = _
    rw [hinsert]
    rfl
  · obtain ⟨d', hd'⟩ := inv.out.mp hout
    have := inv.page_unique law hd'.inUse.mapped hmap hd'.chunk hx
    exact notOut x (this ▸ hd')

/-- A new page is registered in the radix tree and hands out all its chunks. -/
theorem allocate_fresh (law : Lawful B Holds) (inv : Inv cfg Holds slabs h g)
    (hand : InHand cfg slabs h g k d self₁ h₁ R) (ok : (cfg k).Ok)
    (absent : ∀ k', ¬g.Mapped k' d) (back : h₁.back = h.back) (mem : h₁.mem = h.mem)
    (tree : h₁.tree = h.tree)
    {ptr : Nat} {back' : σ} {mem' : Mem} {tree' : RadixTree}
    (halloc : B.alloc h.back h.mem h.tree (PAGE_SIZE * (cfg k).pgNum) =
      some (ptr, back', mem', tree'))
    (fits : InsertFits ((cfg k).run ptr)) :
    ∃ h₂ page tree₃ self' h' g', h₁.allocatePage B d self₁.pgNum = some (h₂, ptr) ∧
      (h₂.desc d).allocateAll (asUsize self₁.pgCount) (asUsize self₁.pgAlign) =
        (page, ptr, (cfg k).count, some (cfg k).align) ∧
      SCAllocator.handleRdTreeInsert self₁.pgNum h₂.tree d ptr = some tree₃ ∧
      self₁.insertFull { h₂ with desc := Function.update h₂.desc d page, tree := tree₃ } d =
        some (self', h') ∧
      Inv cfg Holds (Function.update slabs k self') h' g' ∧
      Granted cfg h h' g g' k ptr (cfg k).count (some (cfg k).align) ((cfg k).chunks ptr) := by
  obtain ⟨holds, hnew, same, cleared⟩ := law.alloc inv.holds ok.num_pos halloc
  have placed := law.placed holds (Set.mem_insert _ _)
  have apart : ∀ p ∈ (⟨ptr, (cfg k).pgNum⟩ : Block).pages, ¬HeldPage (runs cfg h.desc g) p := by
    rintro p hp ⟨blk, hblk, hp'⟩
    refine law.apart holds (Set.mem_insert _ _) (Set.mem_insert_of_mem _ hblk) ?_ p hp hp'
    rintro rfl
    exact hnew hblk
  obtain ⟨tree₃, hinsertTree, entry₃⟩ := handleRdTreeInsert_spec tree' d placed fits
  let page₂ : ObjectPage := { h₁.desc d with data := ptr, ptr := 0, counter := 0 }
  let page : ObjectPage := { page₂ with counter := (cfg k).count, ptr := 0 }
  let h₂ : Heap σ := { h₁ with
    back := back', mem := mem', tree := tree', desc := Function.update h₁.desc d page₂ }
  have hpage₂ : h₂.desc d = page₂ := Function.update_self _ _ _
  let h₃ : Heap σ := { h₂ with desc := Function.update h₂.desc d page, tree := tree₃ }
  have hpage : h₃.desc d = page := Function.update_self _ _ _
  have hand₃ : InHand cfg slabs h g k d self₁ h₃ R := by
    refine hand.congr (fun p => ?_) (fun p hp => ?_) rfl rfl
    · have links₂ := update_links h₁.desc d page₂ rfl rfl p
      have links₃ := update_links h₂.desc d page (by rw [hpage₂]) (by rw [hpage₂]) p
      exact ⟨links₃.1.trans links₂.1, links₃.2.trans links₂.2⟩
    · show (Function.update (Function.update h₁.desc d page₂) d page p).core = _
      rw [Function.update_of_ne hp, Function.update_of_ne hp]
  have hother : ∀ k' d', d' ≠ d → g.Mapped k' d' → ∀ p ∈ ((cfg k').run (h.desc d').data).pages,
      HeldPage (runs cfg h.desc g) p := fun k' d' _ hmap p hp => ⟨_, ⟨k', d', hmap, rfl⟩, hp⟩
  obtain ⟨self', h', g', hinsert, inv', hout, hmem'⟩ := hand₃.fill (l := (cfg k).chunks ptr) law inv
    ok (by rw [hpage]) (by rw [hpage])
    (fun k' d' hd hmap a ha => same.mem a (hother k' d' hd hmap _ ha))
    (by
      rw [hpage, ← Inv.runs_of_not_mapped absent]
      refine law.use holds (fun a _ => rfl) fun p => ?_
      show tree₃.entry p = tree'.entry p ∨ _ ∧ 0 ≤ tree₃.entry p ∧ tree₃.entry p < 2 ^ 48
      rw [entry₃]
      by_cases hp : p ∈ (⟨ptr, (cfg k).pgNum⟩ : Block).pages
      · rw [if_pos hp]
        have := hand.small
        exact .inr ⟨⟨_, Set.mem_insert _ _, hp⟩, by omega, by omega⟩
      · exact .inl (if_neg hp))
    (fun k' d' hd hmap p hp => by
      have hheld := hother k' d' hd hmap p hp
      show tree₃.entry p = _
      rw [entry₃, if_neg (fun hp' => apart p hp' hheld), same.entry p hheld])
    (by
      rw [hpage]
      exact fun p hp => (entry₃ p).trans (if_pos hp))
    (fun x => by
      rw [hpage]
      have notOut : ¬IsOut cfg h.desc g k d x := fun hx => absent k hx.inUse.mapped
      simp only [page, page₂, notOut, or_false])
  refine ⟨h₂, page, tree₃, self', h', g', ?_, ?_, ?_, hinsert, inv', hout, fun x hx hxout => ?_,
    ok.nodup_chunks, Config.length_chunks, ok.count_pos, fun h => absurd h (Option.some_ne_none _),
    fun a ha => ⟨(Option.some.inj ha).symm, rfl⟩, fun a ha => ?_⟩
  · rw [Heap.allocatePage, back, mem, tree, hand.configured.pgNum, halloc]
    exact if_neg placed.pos.ne'
  · rw [hpage₂, ObjectPage.allocateAll, if_pos rfl, hand.configured.count, hand.configured.align]
  · rw [hand.configured.pgNum]
    exact hinsertTree
  · obtain ⟨d', hd'⟩ := inv.out.mp hxout
    exact apart _ (ok.chunk_mem_page placed hx) (hother k d'
      (fun e => absent k (e ▸ hd'.inUse.mapped)) hd'.inUse.mapped _
      (inv.chunk_mem_page law hd'.inUse.mapped hd'.chunk))
  · rw [hmem']
    exact same.mem a ha

omit [DecidableEq κ] in
/-- The body of the branch that needs a new page, after the descriptor has been found. -/
theorem allocate_of_getUninit {align mapped ptr : Nat} {h₂ h₃ h' : Heap σ} {page : ObjectPage}
    {self' : SCAllocator} {ans : Nat × Nat × Option Nat} {tree₃ : RadixTree}
    (hs : ¬((slabs k).partialStart ≠ 0 ∧ align = 1)) (he : (slabs k).emptyStart = 0)
    (huninit : (slabs k).getUninit B h mapped = some (self₁, h₂, d, ptr))
    (hall : (h₂.desc d).allocateAll (asUsize self₁.pgCount) (asUsize self₁.pgAlign) = (page, ans))
    (hinsertTree : SCAllocator.handleRdTreeInsert self₁.pgNum h₂.tree d ptr = some tree₃)
    (hh₃ : h₃ = { h₂ with desc := Function.update h₂.desc d page, tree := tree₃ })
    (hinsert : self₁.insertFull h₃ d = some (self', h')) :
    (slabs k).allocateBatchV2 B h align mapped = some (self', h', ans) := by
  have hempty : (slabs k).getEmpty B h mapped = some (self₁, h₂, d, some ptr) := by
    rw [SCAllocator.getEmpty, if_neg (not_not_intro he), huninit]
    rfl
  rw [SCAllocator.allocateBatchV2, if_neg hs, hempty]
  simp only [Option.bind_eq_bind, Option.bind_some, hall, hinsertTree, ← hh₃, hinsert]

/-- With no page at hand the batch comes from the backend. -/
theorem allocate_new (law : Lawful B Holds) (inv : Inv cfg Holds slabs h g) (ok : (cfg k).Ok)
    {align mapped : Nat} (hs : ¬((slabs k).partialStart ≠ 0 ∧ align = 1))
    (he : (slabs k).emptyStart = 0)
    (fresh : (slabs k).uninitStart = 0 → h.pgBump.Exhausted → FreshDescs h.created mapped)
    {ptr : Nat} {back' : σ} {mem' : Mem} {tree' : RadixTree}
    (halloc : B.alloc h.back h.mem h.tree (PAGE_SIZE * (cfg k).pgNum) =
      some (ptr, back', mem', tree'))
    (fits : InsertFits ((cfg k).run ptr)) :
    ∃ self' h' g', (slabs k).allocateBatchV2 B h align mapped =
        some (self', h', ptr, (cfg k).count, some (cfg k).align) ∧
      Inv cfg Holds (Function.update slabs k self') h' g' ∧
      Granted cfg h h' g g' k ptr (cfg k).count (some (cfg k).align) ((cfg k).chunks ptr) := by
  have threads₀ : h.desc.Threads (starts (Function.update slabs k (slabs k))) g.rings := by
    rw [Function.update_eq_self]
    exact inv.threads
  by_cases hu : (slabs k).uninitStart = 0
  · obtain ⟨pgBump, d, hbump, hd0, hd, hsmall, hok⟩ := PageBumpAlloc.alloc_spec inv.bump (fresh hu)
    have absent : ∀ i, d ∉ g.rings i := fun i hi => hd (inv.created.mpr ⟨i, hi⟩)
    let h₁ : Heap σ := { h with
      pgBump, desc := Function.update h.desc d ObjectPage.new, created := d :: h.created }
    have hne : ∀ i, ∀ p ∈ g.rings i, p ≠ d := fun i p hp e => absent i (e ▸ hp)
    have hand : InHand cfg slabs h g k d (slabs k) h₁ g.rings :=
      { threads := threads₀.congr fun i p hp => by
          simp only [h₁, Function.update_of_ne (hne i p hp), and_self]
        absent := absent
        ne_zero := hd0
        others := fun _ _ _ => Iff.rfl
        old := fun i hi => absurd hi (absent i)
        configured := inv.configured k
        emptyCount := fun k' => by
          rw [Function.update_eq_self]
          exact inv.emptyCount k'
        core := fun d' hd' => congrArg ObjectPage.core (Function.update_of_ne hd' _ _)
        created := fun d' => List.mem_cons
        nodup := List.nodup_cons.mpr ⟨hd, inv.nodup⟩
        small := hsmall
        bump := hok }
    obtain ⟨h₂, page, tree₃, self', h', g', hpage, hall, htree, hinsert, inv', granted⟩ :=
      allocate_fresh law inv hand ok (fun k' ⟨kind, _, hmem⟩ => absent _ hmem) rfl rfl rfl halloc
        fits
    refine ⟨self', h', g', ?_, inv', granted⟩
    refine allocate_of_getUninit hs he ?_ hall htree rfl hinsert
    rw [SCAllocator.getUninit, if_neg (not_not_intro hu), hbump]
    simp only [Option.bind_eq_bind, Option.bind_some, if_neg hd0]
    show (h₁.allocatePage B d _ >>= _) = _
    rw [hpage]
    rfl
  · have hmem : (slabs k).uninitStart ∈ g.rings (k, .uninit) :=
      inv.threads.start_mem (i := ((k, .uninit) : κ × Kind)) hu
    generalize hd : (slabs k).uninitStart = d at hu hmem
    obtain ⟨desc, s, hremove, threads, core⟩ := removeFrom_spec threads₀ hmem
    have hand := InHand.of_remove inv hmem ((inv.configured k).setStart _ s) threads
      (fun p _ => core p) (by simp)
    have absent : ∀ k', ¬g.Mapped k' d := fun k' ⟨kind, hkind, hmem'⟩ =>
      hkind (congrArg Prod.snd (inv.threads.apart hmem' hmem))
    obtain ⟨h₂, page, tree₃, self', h', g', hpage, hall, htree, hinsert, inv', granted⟩ :=
      allocate_fresh law inv hand ok absent rfl rfl rfl halloc fits
    refine ⟨self', h', g', ?_, inv', granted⟩
    refine allocate_of_getUninit hs he ?_ hall htree rfl hinsert
    rw [SCAllocator.getUninit, if_pos (by rwa [hd]), SCAllocator.removeUninit, hd, hremove]
    simp only [Option.bind_eq_bind, Option.bind_some, hpage]

/-- Without a page at hand and without one from the backend the call panics. -/
theorem allocateBatchV2_eq_none {slab : SCAllocator} {align mapped : Nat}
    (hs : ¬(slab.partialStart ≠ 0 ∧ align = 1)) (he : slab.emptyStart = 0)
    (hnone : B.alloc h.back h.mem h.tree (PAGE_SIZE * slab.pgNum) = none) :
    slab.allocateBatchV2 B h align mapped = none := by
  have hpage : ∀ (h₁ : Heap σ) d, h₁.back = h.back → h₁.mem = h.mem → h₁.tree = h.tree →
      h₁.allocatePage B d slab.pgNum = none := by
    intro h₁ d hback hmem htree
    rw [Heap.allocatePage, hback, hmem, htree, hnone]
    rfl
  have huninit : slab.getUninit B h mapped = none := by
    rw [SCAllocator.getUninit]
    split
    · next hu =>
        rw [SCAllocator.removeUninit, SCAllocator.removeFrom]
        cases h.desc.removeRing (slab.start .uninit) slab.uninitStart with
        | none => rfl
        | some r =>
            have hnum : (slab.setStart .uninit r.2).pgNum = slab.pgNum := rfl
            simp only [Option.bind_eq_bind, Option.bind_some, hnum]
            rw [hpage _ _ (by rfl) (by rfl) (by rfl)]
            rfl
    · cases h.pgBump.alloc OBJECT_PAGE_SIZE mapped with
      | none => rfl
      | some r =>
          simp only [Option.bind_eq_bind, Option.bind_some]
          split
          · rfl
          · rw [hpage _ _ (by rfl) (by rfl) (by rfl)]
            rfl
  rw [SCAllocator.allocateBatchV2, if_neg hs, SCAllocator.getEmpty, if_neg (not_not_intro he),
    huninit]
  rfl

/-- The page that `get_uninit` finds comes from the backend. -/
theorem getUninit_granted {slab : SCAllocator} {mapped : Nat}
    {r : SCAllocator × Heap σ × Nat × Nat} (hcall : slab.getUninit B h mapped = some r) :
    r.1.pgNum = slab.pgNum ∧
      ∃ b, B.alloc h.back h.mem h.tree (PAGE_SIZE * slab.pgNum) = some (r.2.2.2, b) := by
  have hpage : ∀ {h₁ h₂ : Heap σ} {d ptr}, h₁.back = h.back → h₁.mem = h.mem → h₁.tree = h.tree →
      h₁.allocatePage B d slab.pgNum = some (h₂, ptr) →
      ∃ b, B.alloc h.back h.mem h.tree (PAGE_SIZE * slab.pgNum) = some (ptr, b) := by
    intro h₁ h₂ d ptr hback hmem htree hcall
    rw [Heap.allocatePage, hback, hmem, htree] at hcall
    obtain ⟨⟨ans, b⟩, halloc, hcall⟩ := Option.bind_eq_some_iff.mp hcall
    obtain ⟨-, hcall⟩ := Option.ite_none_left_eq_some.mp hcall
    cases hcall
    exact ⟨b, halloc⟩
  rw [SCAllocator.getUninit] at hcall
  split at hcall
  · obtain ⟨⟨self₁, h₁, res⟩, hremove, hcall⟩ := Option.bind_eq_some_iff.mp hcall
    obtain ⟨⟨self₂, h₂⟩, hremove, hres⟩ := Option.bind_eq_some_iff.mp hremove
    obtain ⟨ring, -, hremove⟩ := Option.bind_eq_some_iff.mp hremove
    cases hremove
    cases hres
    obtain ⟨⟨h₃, ptr⟩, halloc, hcall⟩ := Option.bind_eq_some_iff.mp hcall
    cases hcall
    exact ⟨rfl, hpage (by rfl) (by rfl) (by rfl) halloc⟩
  · obtain ⟨⟨pgBump, memory⟩, -, hcall⟩ := Option.bind_eq_some_iff.mp hcall
    obtain ⟨-, hcall⟩ := Option.ite_none_left_eq_some.mp hcall
    obtain ⟨⟨h₃, ptr⟩, halloc, hcall⟩ := Option.bind_eq_some_iff.mp hcall
    cases hcall
    exact ⟨rfl, hpage (by rfl) (by rfl) (by rfl) halloc⟩

omit [DecidableEq κ] in
/-- A call that returns with a new page has registered its run. -/
theorem insertFits_of_call (law : Lawful B Holds) (inv : Inv cfg Holds slabs h g) {align mapped : Nat}
    (hnum : 0 < (cfg k).pgNum) (hs : ¬((slabs k).partialStart ≠ 0 ∧ align = 1))
    (he : (slabs k).emptyStart = 0) {r : SCAllocator × Heap σ × Nat × Nat × Option Nat}
    (hcall : (slabs k).allocateBatchV2 B h align mapped = some r) {ptr : Nat}
    {b : σ × Mem × RadixTree}
    (halloc : B.alloc h.back h.mem h.tree (PAGE_SIZE * (cfg k).pgNum) = some (ptr, b)) :
    InsertFits ((cfg k).run ptr) := by
  rw [SCAllocator.allocateBatchV2, if_neg hs, SCAllocator.getEmpty, if_neg (not_not_intro he)]
    at hcall
  obtain ⟨⟨self₁, h₁, d, newPage⟩, hempty, hcall⟩ := Option.bind_eq_some_iff.mp hcall
  obtain ⟨⟨self₂, h₂, res, ans⟩, huninit, hempty⟩ := Option.bind_eq_some_iff.mp hempty
  cases hempty
  obtain ⟨tree₃, hinsert, -⟩ := Option.bind_eq_some_iff.mp hcall
  obtain ⟨hself, b', halloc'⟩ := getUninit_granted huninit
  rw [(inv.configured k).pgNum] at hself halloc'
  obtain ⟨rfl, -⟩ := Prod.mk.inj (Option.some.inj (halloc.symm.trans halloc'))
  obtain ⟨holds, -⟩ := law.alloc inv.holds hnum halloc
  by_contra misfit
  have hnone := handleRdTreeInsert_eq_none h₁.tree d (law.placed holds (Set.mem_insert _ _)) misfit
  have hinsert' : SCAllocator.handleRdTreeInsert self₁.pgNum h₁.tree d ptr = some tree₃ := hinsert
  rw [show self₁.pgNum = (cfg k).pgNum from hself, hnone] at hinsert'
  cases hinsert'

/-- `allocate_batch_v2` keeps the invariant and hands out chunks that were not out. It
panics only if it needs a page and the backend has none. -/
theorem allocate_spec (law : Lawful B Holds) (inv : Inv cfg Holds slabs h g)
    (align : Nat) {mapped : Nat}
    (fresh : ¬((slabs k).partialStart ≠ 0 ∧ align = 1) → (slabs k).emptyStart = 0 →
      (slabs k).uninitStart = 0 → h.pgBump.Exhausted → FreshDescs h.created mapped)
    (grant : ¬((slabs k).partialStart ≠ 0 ∧ align = 1) → (slabs k).emptyStart = 0 →
      ∀ ptr r, B.alloc h.back h.mem h.tree (PAGE_SIZE * (cfg k).pgNum) = some (ptr, r) →
        (cfg k).Ok ∧ InsertFits ((cfg k).run ptr)) :
    (∃ self' h' ptr n stride g' l, (slabs k).allocateBatchV2 B h align mapped =
        some (self', h', ptr, n, stride) ∧
      Inv cfg Holds (Function.update slabs k self') h' g' ∧
      Granted cfg h h' g g' k ptr n stride l ∧ (stride = none → align = 1)) ∨
    (slabs k).allocateBatchV2 B h align mapped = none ∧
      B.alloc h.back h.mem h.tree (PAGE_SIZE * (cfg k).pgNum) = none := by
  by_cases hs : (slabs k).partialStart ≠ 0 ∧ align = 1
  · obtain ⟨hs, rfl⟩ := hs
    obtain ⟨self', h', ptr, n, g', l, hcall, inv', granted⟩ := allocate_partial law inv hs mapped
    exact .inl ⟨self', h', ptr, n, _, g', l, hcall, inv', granted, fun _ => rfl⟩
  · by_cases he : (slabs k).emptyStart = 0
    · cases halloc : B.alloc h.back h.mem h.tree (PAGE_SIZE * (cfg k).pgNum) with
      | none =>
          rw [← (inv.configured k).pgNum] at halloc
          exact .inr ⟨allocateBatchV2_eq_none hs he halloc, rfl⟩
      | some r =>
          obtain ⟨ptr, back', mem', tree'⟩ := r
          obtain ⟨ok, fits⟩ := grant hs he _ _ halloc
          obtain ⟨self', h', g', hcall, inv', granted⟩ :=
            allocate_new law inv ok hs he (fresh hs he) halloc fits
          exact .inl ⟨self', h', ptr, _, _, g', _, hcall, inv', granted,
            fun h => absurd h (Option.some_ne_none _)⟩
    · obtain ⟨self', h', ptr, n, g', l, hcall, inv', granted⟩ := allocate_empty law inv hs he mapped
      exact .inl ⟨self', h', ptr, n, _, g', l, hcall, inv', granted,
        fun h => absurd h (Option.some_ne_none _)⟩

end Sources

end UniAlloc.Slab
