import UniAlloc.Slab.System
import Mathlib.Data.List.Perm.Subperm

/-!
# Pages of one chunk

When a page has room for one chunk only, it is full or empty. A new page is taken for every
chunk while no chunk comes back, and the pages of the chunks that have come back are counted
by `empty_count`.
-/

namespace UniAlloc.Slab

open FreeList Radix Transition

variable {σ : Type} {B : PageBackend σ} {Holds : σ → Mem → RadixTree → Set Block → Prop}
  {s : State σ} {c : Config} {g : Ghost Unit}

theorem Config.chunks_single (hcount : c.count = 1) (data : Nat) : c.chunks data = [data] := by
  simp [Config.chunks, hcount]

namespace Represented

theorem partially_single (rep : Represented Holds c s g) (hcount : c.count = 1) :
    g.rings ((), .partially) = [] := by
  refine List.eq_nil_iff_forall_not_mem.mpr fun d hd => ?_
  obtain ⟨-, busy, hfree⟩ := rep.inv.page hd
  have := busy.sum
  have := busy.pos
  have := List.length_pos_of_ne_nil hfree
  omega

/-- The chunks that are out are the pages on the full ring. -/
theorem out_single (law : Lawful B Holds) (rep : Represented Holds c s g) (hcount : c.count = 1) :
    s.out = (g.rings ((), .full)).map fun d => (s.heap.desc d).data := by
  have hchunk : ∀ d, (s.heap.desc d).data ∈ c.chunks (s.heap.desc d).data := fun d => by
    rw [Config.chunks_single hcount]
    exact List.mem_singleton_self _
  have nodup : ((g.rings ((), .full)).map fun d => (s.heap.desc d).data).Nodup := by
    refine (rep.inv.threads.nodup _).map_on fun d hd d' hd' hdata => ?_
    refine rep.inv.page_unique law ⟨.full, by decide, hd⟩ ⟨.full, by decide, hd'⟩ (hchunk d) ?_
    exact hdata ▸ hchunk d'
  rw [rep.out]
  refine (Multiset.Nodup.ext (Finset.nodup _) (Multiset.coe_nodup.mpr nodup)).mpr fun x => ?_
  rw [Finset.mem_val, rep.inv.out, Multiset.mem_coe, List.mem_map]
  constructor
  · rintro ⟨d, hin, hx, -⟩
    rw [Config.chunks_single hcount, List.mem_singleton] at hx
    refine ⟨d, hin.resolve_right fun hpart => ?_, hx.symm⟩
    rw [rep.partially_single hcount] at hpart
    exact absurd hpart List.not_mem_nil
  · rintro ⟨d, hd, rfl⟩
    refine ⟨d, .inl hd, hchunk d, ?_⟩
    rw [(rep.inv.page hd).2.2]
    exact List.not_mem_nil

/-- While every descriptor has a page, the pages without chunks out are on the empty ring. -/
theorem emptyCount_single (law : Lawful B Holds) (rep : Represented Holds c s g)
    (hcount : c.count = 1) (huninit : s.slab.uninitStart = 0) :
    s.slab.emptyCount + s.out.card = s.heap.created.length := by
  have hnone : g.rings ((), .uninit) = [] :=
    (rep.inv.threads.start_eq_null_iff ((), .uninit)).mp huninit
  have hperm : List.Perm s.heap.created (g.rings ((), .full) ++ g.rings ((), .empty)) := by
    refine (List.perm_ext_iff_of_nodup rep.inv.nodup (List.nodup_append.mpr
      ⟨rep.inv.threads.nodup _, rep.inv.threads.nodup _, ?_⟩)).mpr fun d => ?_
    · rintro d hd d' hd' rfl
      cases rep.ring_unique hd hd'
    · rw [rep.inv.created, List.mem_append]
      constructor
      · rintro ⟨⟨⟨⟩, kind⟩, hd⟩
        cases kind with
        | full => exact .inl hd
        | partially => exact absurd (rep.partially_single hcount ▸ hd) List.not_mem_nil
        | empty => exact .inr hd
        | uninit => exact absurd (hnone ▸ hd) List.not_mem_nil
      · rintro (hd | hd)
        · exact ⟨_, hd⟩
        · exact ⟨_, hd⟩
  rw [rep.inv.emptyCount (), rep.out_single law hcount, Multiset.coe_card, List.length_map,
    hperm.length_eq, List.length_append, Nat.add_comm]

end Represented

/-- A call that needs a new page and a new descriptor writes nothing else outside of its own
rings. -/
theorem allocateBatchV2_new {self self' : SCAllocator} {h h' : Heap σ} {align mapped : Nat}
    {ans : Nat × Nat × Option Nat} (hs : ¬(self.partialStart ≠ 0 ∧ align = 1))
    (he : self.emptyStart = 0) (hu : self.uninitStart = 0)
    (hcall : self.allocateBatchV2 B h align mapped = some (self', h', ans)) :
    self'.uninitStart = 0 ∧ (∃ d, h.pgBump.alloc OBJECT_PAGE_SIZE mapped = some (h'.pgBump, d) ∧
      h'.created = d :: h.created) ∧
    ∃ ptr mem tree, B.alloc h.back h.mem h.tree (PAGE_SIZE * self.pgNum) =
      some (ptr, h'.back, mem, tree) := by
  rw [SCAllocator.allocateBatchV2, if_neg hs, SCAllocator.getEmpty, if_neg (not_not_intro he),
    SCAllocator.getUninit, if_neg (not_not_intro hu)] at hcall
  obtain ⟨⟨self₁, h₁, d₁, newPage⟩, hempty, hcall⟩ := Option.bind_eq_some_iff.mp hcall
  obtain ⟨⟨self₂, h₂, d₂, addr⟩, huninit, hempty⟩ := Option.bind_eq_some_iff.mp hempty
  cases hempty
  obtain ⟨⟨pgBump, d⟩, hbump, huninit⟩ := Option.bind_eq_some_iff.mp huninit
  obtain ⟨-, huninit⟩ := Option.ite_none_left_eq_some.mp huninit
  obtain ⟨⟨h₃, ptr⟩, hpage, huninit⟩ := Option.bind_eq_some_iff.mp huninit
  cases huninit
  obtain ⟨⟨ans₁, back, mem, tree⟩, halloc, hpage⟩ := Option.bind_eq_some_iff.mp hpage
  obtain ⟨-, hpage⟩ := Option.ite_none_left_eq_some.mp hpage
  cases hpage
  obtain ⟨tree₃, -, hcall⟩ := Option.bind_eq_some_iff.mp hcall
  obtain ⟨⟨self₄, h₄⟩, hinsert, hcall⟩ := Option.bind_eq_some_iff.mp hcall
  obtain ⟨⟨desc, start⟩, -, hinsert⟩ := Option.bind_eq_some_iff.mp hinsert
  cases hinsert
  cases hcall
  exact ⟨hu, ⟨_, hbump, rfl⟩, _, _, _, halloc⟩

/-- A removal changes its own start only. -/
theorem removeFrom_kept {self self' : SCAllocator} {h h' : Heap σ} {kind : Kind} {idx : Nat}
    (hkind : kind ≠ .uninit) (hcall : self.removeFrom h kind idx = some (self', h')) :
    self'.emptyCount = self.emptyCount ∧ self'.uninitStart = self.uninitStart ∧
      h'.created = h.created := by
  obtain ⟨r, -, hcall⟩ := Option.bind_eq_some_iff.mp hcall
  cases hcall
  cases kind with
  | full => exact ⟨rfl, rfl, rfl⟩
  | partially => exact ⟨rfl, rfl, rfl⟩
  | empty => exact ⟨rfl, rfl, rfl⟩
  | uninit => exact absurd rfl hkind

/-- So does an insertion. -/
theorem insertInto_kept {self self' : SCAllocator} {h h' : Heap σ} {kind : Kind} {idx : Nat}
    (hkind : kind ≠ .uninit) (hcall : self.insertInto h kind idx = some (self', h')) :
    self'.uninitStart = self.uninitStart ∧ h'.created = h.created := by
  obtain ⟨r, -, hcall⟩ := Option.bind_eq_some_iff.mp hcall
  cases hcall
  cases kind with
  | full => exact ⟨rfl, rfl⟩
  | partially => exact ⟨rfl, rfl⟩
  | empty => exact ⟨rfl, rfl⟩
  | uninit => exact absurd rfl hkind

/-- With few empty pages a page without chunks out goes to the empty ring. -/
theorem insertEty_kept {self self' : SCAllocator} {h h' : Heap σ} {idx : Nat} {p : Option Nat}
    (few : self.emptyCount ≤ 2048) (hcall : self.insertEty B h idx = some (self', h', p)) :
    self'.uninitStart = self.uninitStart ∧ h'.created = h.created := by
  rw [SCAllocator.insertEty, if_neg (Nat.not_lt.mpr few)] at hcall
  obtain ⟨⟨self₁, h₁⟩, hinto, hcall⟩ := Option.bind_eq_some_iff.mp hcall
  cases hcall
  have hkept := insertInto_kept (by decide) hinto
  exact hkept

theorem relocate_kept {self self' : SCAllocator} {h h' : Heap σ} {idx : Nat} {backPartial : Bool}
    (few : self.emptyCount ≤ 2048)
    (hcall : self.relocate B h idx backPartial = some (self', h')) :
    self'.uninitStart = self.uninitStart ∧ h'.created = h.created := by
  rw [SCAllocator.relocate] at hcall
  split at hcall
  · obtain ⟨⟨self₁, h₁⟩, hfrom, hcall⟩ := Option.bind_eq_some_iff.mp hcall
    obtain ⟨hcount, huninit, hcreated⟩ : self₁.emptyCount = self.emptyCount ∧
        self₁.uninitStart = self.uninitStart ∧ h₁.created = h.created := by
      split at hfrom
      · exact removeFrom_kept (by decide) hfrom
      · exact removeFrom_kept (by decide) hfrom
    obtain ⟨released, -, hcall⟩ := Option.bind_eq_some_iff.mp hcall
    obtain ⟨tree, -, hcall⟩ := Option.bind_eq_some_iff.mp hcall
    obtain ⟨⟨self₂, h₂, p⟩, hety, hcall⟩ := Option.bind_eq_some_iff.mp hcall
    cases hcall
    obtain ⟨huninit', hcreated'⟩ := insertEty_kept (hcount.trans_le few) hety
    exact ⟨huninit'.trans huninit, hcreated'.trans hcreated⟩
  · split at hcall
    · obtain ⟨⟨self₁, h₁⟩, hfrom, hinto⟩ := Option.bind_eq_some_iff.mp hcall
      obtain ⟨-, huninit, hcreated⟩ := removeFrom_kept (by decide) hfrom
      obtain ⟨huninit', hcreated'⟩ := insertInto_kept (by decide) hinto
      exact ⟨huninit'.trans huninit, hcreated'.trans hcreated⟩
    · cases hcall
      exact ⟨rfl, rfl⟩

/-- With few empty pages no page is given back. -/
theorem deallocateHead_kept {self self' : SCAllocator} {h h' : Heap σ} {head head' : Nat}
    (few : self.emptyCount ≤ 2048)
    (hcall : self.deallocateHead B h head = some (self', h', head')) :
    self'.uninitStart = self.uninitStart ∧ h'.created = h.created := by
  obtain ⟨v, -, hcall⟩ := Option.bind_eq_some_iff.mp hcall
  obtain ⟨-, hcall⟩ := Option.ite_none_left_eq_some.mp hcall
  obtain ⟨⟨page, mem, head₁⟩, -, hcall⟩ := Option.bind_eq_some_iff.mp hcall
  obtain ⟨⟨self₁, h₁⟩, hrelocate, hcall⟩ := Option.bind_eq_some_iff.mp hcall
  cases hcall
  have hkept := relocate_kept few hrelocate
  exact hkept

namespace Represented

variable {x : Nat}

/-- A single chunk that is out, after its holder has cleared it. -/
theorem cleared (law : Lawful B Holds) (rep : Represented Holds c s g) (hx : x ∈ s.out) :
    Step B s .stored
        { s with heap := { s.heap with mem := Function.update s.heap.mem x 0 } } ∧
      Represented Holds c
        { s with heap := { s.heap with mem := Function.update s.heap.mem x 0 } } g := by
  have same : ∀ a, (∀ y ∈ s.out, ¬(y ≤ a ∧ a < y + asUsize s.slab.pgAlign)) →
      Function.update s.heap.mem x 0 a = s.heap.mem a := by
    intro a ha
    refine Function.update_of_ne ?_ _ _
    rintro rfl
    refine ha a hx ⟨le_rfl, ?_⟩
    have hout := hx
    rw [rep.out, Finset.mem_val] at hout
    obtain ⟨d, hd⟩ := rep.inv.out.mp hout
    rw [(rep.inv.configured ()).align]
    have := (rep.inv.ok hd.inUse.mapped).align_pos
    omega
  exact ⟨.store _ same, rep.store law same⟩

/-- A single chunk comes back. -/
theorem deallocate_single (law : Lawful B Holds) (rep : Represented Holds c s g)
    (hx : x ∈ s.out) (hmem : s.heap.mem x = 0) (few : s.slab.emptyCount ≤ 2048) :
    ∃ s' g', Step B s (.deallocated [x]) s' ∧ Represented Holds c s' g' ∧ s'.out = s.out - {x} ∧
      s'.slab.uninitStart = s.slab.uninitStart ∧ s'.heap.created = s.heap.created := by
  have linked : Segment s.heap.mem x [x] 0 := ⟨rfl, hmem⟩
  have hout : ∀ y ∈ [x], y ∈ g.out () := fun y hy => by
    rw [List.mem_singleton.mp hy]
    rwa [rep.out, Finset.mem_val] at hx
  obtain ⟨slab, heap, head', g', taken, post, hsplit, hne, hcall, inv', ret, rest⟩ | ⟨-, many, -⟩ :=
    deallocateHead_spec law rep.inv (k := ()) linked (List.cons_ne_nil _ _)
      (List.nodup_singleton x) hout
  · obtain ⟨rfl, rfl⟩ : taken = [x] ∧ post = [] := by
      obtain ⟨y, taken, rfl⟩ := List.exists_cons_of_ne_nil hne
      simp only [List.cons_append, List.cons.injEq, List.nil_eq, List.append_eq_nil_iff] at hsplit
      obtain ⟨rfl, rfl, rfl⟩ := hsplit
      exact ⟨rfl, rfl⟩
    obtain rfl : head' = 0 := rest
    obtain ⟨huninit, hcreated⟩ := deallocateHead_kept few hcall
    have hbatch : SCAllocator.deallocateBatch B 1 s.slab s.heap x = some (slab, heap) := by
      have hx0 : x ≠ 0 := by
        have := rep.inv.out_pos law (hout x (List.mem_singleton_self x))
        omega
      rw [SCAllocator.deallocateBatch, if_neg hx0, hcall]
      rfl
    refine ⟨⟨slab, heap, s.out - ↑[x]⟩, g',
      .deallocate [x] x 1 linked (List.nodup_singleton x) ?_ hbatch, rep.returned inv' ret, rfl,
      huninit, hcreated⟩
    exact fun y hy => (List.mem_singleton.mp hy) ▸ hx
  · omega

/-- With many empty pages the page of a single chunk is given back, which panics if it cannot
be cleared. -/
theorem deallocateHead_single (law : Lawful B Holds) (rep : Represented Holds c s g)
    (hcount : c.count = 1) (hx : x ∈ s.out) (hmem : s.heap.mem x = 0)
    (many : 2048 < s.slab.emptyCount) (misfit : ¬RemoveFits (c.run x)) :
    s.slab.deallocateHead B s.heap x = none := by
  have hout : ∀ y ∈ [x], y ∈ g.out () := fun y hy => by
    rw [List.mem_singleton.mp hy]
    rwa [rep.out, Finset.mem_val] at hx
  obtain ⟨d, taken, post, mem', head', P⟩ := exists_piece law rep.inv (k := ())
    (show Segment s.heap.mem x [x] 0 from ⟨rfl, hmem⟩) (List.cons_ne_nil _ _)
    (List.nodup_singleton x) hout
  obtain ⟨y, taken, rfl⟩ := List.exists_cons_of_ne_nil P.ne_nil
  obtain rfl : x = y := by
    have := P.split
    simp only [List.cons_append, List.cons.injEq] at this
    exact this.1
  have hhead : x ∈ x :: taken := List.mem_cons_self
  obtain ⟨-, busy⟩ := InUse.busy rep.inv P.inUse
  have hdata : x = (s.heap.desc d).data := by
    have := (P.isOut x hhead).chunk
    rwa [Config.chunks_single hcount, List.mem_singleton] at this
  have hzero : (s.heap.desc d).counter - (x :: taken).length = 0 := by
    have := busy.sum
    rw [List.length_cons]
    omega
  rw [P.deallocateHead law rep.inv hhead,
    P.relocate_eq_none law rep.inv hzero many (hdata ▸ misfit)]
  rfl

end Represented

end UniAlloc.Slab
