import UniAlloc.Slab.Allocate
import UniAlloc.Slab.Chunks
import UniAlloc.Slab.Config
import UniAlloc.Slab.Deallocate
import UniAlloc.Transition.Basic

/-!
# One allocator and its callers

Sequences of `allocate_batch_v2` and `deallocate_batch` on one allocator. Between
the calls the callers write to the chunks they hold, which is how they link the
chains they give back.
-/

namespace UniAlloc.Slab

open FreeList Radix Transition

/-- The chunks an answer of `allocate_batch_v2` stands for. -/
def handed (mem : Mem) : Nat × Nat × Option Nat → List Nat
  | (ptr, n, some stride) => (List.range n).map fun i => ptr + i * stride
  | (ptr, n, none) => Segment.follow mem n ptr

/-- The allocator, the heap, and the chunks handed out and not yet returned. -/
structure State (σ : Type) where
  slab : SCAllocator
  heap : Heap σ
  out : Multiset Nat

inductive Event where
  | allocated (chunks : List Nat)
  | deallocated (chain : List Nat)
  | stored

variable {σ : Type} (B : PageBackend σ)

def State.new (sizeClass numOsPages : Nat) (mem : Mem) (back : σ) : State σ :=
  ⟨SCAllocator.new sizeClass numOsPages, Heap.new mem back, 0⟩

inductive Step : State σ → Event → State σ → Prop where
  | allocate {s slab heap ans} (align mapped)
      (fresh : s.heap.pgBump.Exhausted → FreshDescs s.heap.created mapped)
      (call : s.slab.allocateBatchV2 B s.heap align mapped = some (slab, heap, ans)) :
      Step s (.allocated (handed heap.mem ans)) ⟨slab, heap, handed heap.mem ans + s.out⟩
  /-- A null terminated chain of distinct chunks that are out. -/
  | deallocate {s slab heap} (chain head fuel) (linked : Segment s.heap.mem head chain 0)
      (nodup : chain.Nodup) (out : ∀ x ∈ chain, x ∈ s.out)
      (call : SCAllocator.deallocateBatch B fuel s.slab s.heap head = some (slab, heap)) :
      Step s (.deallocated chain) ⟨slab, heap, s.out - chain⟩
  /-- The callers write to the chunks they hold. -/
  | store {s} (mem)
      (same : ∀ a, (∀ x ∈ s.out, ¬(x ≤ a ∧ a < x + asUsize s.slab.pgAlign)) →
        mem a = s.heap.mem a) :
      Step s .stored { s with heap := { s.heap with mem } }

/-- The state of an allocator between two calls, in terms of the descriptors on its four
rings. -/
structure WellShaped (s : State σ) (rings : Kind → List Nat) : Prop where
  /-- Every descriptor ever created is on exactly one ring, once. -/
  one_ring : ∀ d ∈ s.heap.created, ∃! kind, d ∈ rings kind
  nodup : ∀ kind, (rings kind).Nodup
  created : ∀ kind, ∀ d ∈ rings kind, d ∈ s.heap.created
  full : ∀ d ∈ s.heap.created,
    d ∈ rings .full ↔ (s.heap.desc d).counter = asUsize s.slab.pgCount
  partially : ∀ d ∈ s.heap.created, d ∈ rings .partially ↔
    0 < (s.heap.desc d).counter ∧ (s.heap.desc d).counter < asUsize s.slab.pgCount
  empty : ∀ d ∈ s.heap.created, d ∈ rings .empty ↔
    (s.heap.desc d).counter = 0 ∧ (s.heap.desc d).data ≠ 0
  uninit : ∀ d ∈ s.heap.created, d ∈ rings .uninit ↔ (s.heap.desc d).data = 0
  emptyCount : s.slab.emptyCount = (rings .empty).length
  /-- The rings are closed, and `prev` and `next` are inverse on them. -/
  ring : ∀ kind, LinkedRing (fun d => (s.heap.desc d).prev) (fun d => (s.heap.desc d).next)
    (rings kind)
  start : ∀ kind, s.slab.start kind = (rings kind).headD 0
  start_null : ∀ kind, s.slab.start kind = 0 ↔ rings kind = []
  /-- The free list of a partially used page. -/
  free : ∀ d ∈ rings .partially, ∃ l : List Nat, Segment s.heap.mem (s.heap.desc d).ptr l 0 ∧
    l.length = asUsize s.slab.pgCount - (s.heap.desc d).counter ∧ l.Nodup ∧
    ∀ x ∈ l, x ∈ (Config.of s.slab).chunks (s.heap.desc d).data ∧ x ∉ s.out
  /-- The radix tree leads from the pages of a slab to its descriptor. -/
  mapped : ∀ d ∈ s.heap.created, (s.heap.desc d).data ≠ 0 →
    ∀ p ∈ (⟨(s.heap.desc d).data, s.slab.pgNum⟩ : Block).pages,
      s.heap.tree.entry p % 2 ^ 48 = d
  /-- It leads from no other page to a descriptor. -/
  unmapped : ∀ p, (∀ d ∈ s.heap.created, (s.heap.desc d).data ≠ 0 →
    p ∉ (⟨(s.heap.desc d).data, s.slab.pgNum⟩ : Block).pages) →
      ∀ d ∈ s.heap.created, s.heap.tree.entry p % 2 ^ 48 ≠ d

/-- The choices of the callers: a call with its arguments, or a store to one address. -/
inductive Move where
  | allocate (align mapped : Nat)
  | deallocate (chain : List Nat)
  | store (a v : Nat)

/-- The step a move stands for, if it is possible. -/
def State.move (s : State σ) : Move → Option (Event × State σ)
  | .allocate align mapped =>
      if s.heap.pgBump.Exhausted → FreshDescs s.heap.created mapped then do
        let (slab, heap, ans) ← s.slab.allocateBatchV2 B s.heap align mapped
        some (.allocated (handed heap.mem ans), ⟨slab, heap, handed heap.mem ans + s.out⟩)
      else none
  | .deallocate chain =>
      if Segment s.heap.mem (chain.headD 0) chain 0 ∧ chain.Nodup ∧ ∀ x ∈ chain, x ∈ s.out then do
        let (slab, heap) ←
          SCAllocator.deallocateBatch B chain.length s.slab s.heap (chain.headD 0)
        some (.deallocated chain, ⟨slab, heap, s.out - chain⟩)
      else none
  | .store a v =>
      if ∀ x ∈ s.out, ¬(x ≤ a ∧ a < x + asUsize s.slab.pgAlign) then none
      else some (.stored, { s with heap := { s.heap with mem := Function.update s.heap.mem a v } })

theorem State.move_step {s : State σ} {m : Move} {x : Event × State σ}
    (h : s.move B m = some x) : Step B s x.1 x.2 := by
  cases m with
  | allocate align mapped =>
      obtain ⟨fresh, h⟩ := Option.ite_none_right_eq_some.mp h
      obtain ⟨⟨slab, heap, ans⟩, call, hx⟩ := Option.bind_eq_some_iff.mp h
      cases hx
      exact Step.allocate align mapped fresh call
  | deallocate chain =>
      obtain ⟨⟨linked, nodup, out⟩, h⟩ := Option.ite_none_right_eq_some.mp h
      obtain ⟨⟨slab, heap⟩, call, hx⟩ := Option.bind_eq_some_iff.mp h
      cases hx
      exact Step.deallocate chain _ _ linked nodup out call
  | store a v =>
      obtain ⟨hheld, h⟩ := Option.ite_none_left_eq_some.mp h
      cases h
      refine Step.store _ fun b hb => Function.update_of_ne ?_ _ _
      rintro rfl
      exact hheld hb

variable {B} {Holds : σ → Mem → RadixTree → Set Block → Prop} {s : State σ}

/-- The family that consists of the one allocator. -/
structure Represented (Holds : σ → Mem → RadixTree → Set Block → Prop) (c : Config)
    (s : State σ) (g : Ghost Unit) : Prop where
  inv : Inv (fun _ => c) Holds (fun _ => s.slab) s.heap g
  out : s.out = (g.out ()).val

namespace Represented

variable {c : Config} {g : Ghost Unit}

theorem config (rep : Represented Holds c s g) : Config.of s.slab = c := by
  obtain ⟨h₁, h₂, h₃⟩ := rep.inv.configured ()
  rw [Config.of, h₁, h₂, h₃]

/-- On which ring a descriptor is can be read off it. -/
theorem kind_iff (rep : Represented Holds c s g) {kind : Kind} {d : Nat}
    (hd : d ∈ g.rings ((), kind)) :
    (kind = .full ↔ (s.heap.desc d).counter = c.count) ∧
    (kind = .partially ↔
      0 < (s.heap.desc d).counter ∧ (s.heap.desc d).counter < c.count) ∧
    (kind = .empty ↔ (s.heap.desc d).counter = 0 ∧ (s.heap.desc d).data ≠ 0) ∧
    (kind = .uninit ↔ (s.heap.desc d).data = 0) := by
  have page := rep.inv.page hd
  have hcount := (rep.inv.sound hd).count_pos
  cases kind with
  | full =>
      obtain ⟨hdata, busy, hfree⟩ := page
      have hsum := busy.sum
      rw [hfree, List.length_nil] at hsum
      refine ⟨?_, ?_, ?_, ?_⟩ <;> simp [hdata] <;> omega
  | partially =>
      obtain ⟨hdata, busy, hfree⟩ := page
      have hsum := busy.sum
      have := busy.pos
      have := List.length_pos_of_ne_nil hfree
      refine ⟨?_, ?_, ?_, ?_⟩ <;> simp [hdata]
      all_goals omega
  | empty =>
      obtain ⟨hdata, hzero⟩ := page
      refine ⟨?_, ?_, ?_, ?_⟩ <;> simp [hdata, hzero]
      omega
  | uninit =>
      obtain ⟨hdata, hzero⟩ := page
      refine ⟨?_, ?_, ?_, ?_⟩ <;> simp [hdata, hzero]
      all_goals omega

theorem ring_unique (rep : Represented Holds c s g) {a b : Kind} {d : Nat}
    (ha : d ∈ g.rings ((), a)) (hb : d ∈ g.rings ((), b)) : a = b :=
  rep.inv.kind_unique ha hb

theorem mapped_iff (rep : Represented Holds c s g) {d : Nat} :
    g.Mapped () d ↔ d ∈ s.heap.created ∧ (s.heap.desc d).data ≠ 0 := by
  constructor
  · rintro ⟨kind, hkind, hd⟩
    refine ⟨rep.inv.created.mpr ⟨_, hd⟩, fun hdata => hkind ?_⟩
    exact (rep.kind_iff hd).2.2.2.mpr hdata
  · rintro ⟨hd, hdata⟩
    obtain ⟨⟨⟨⟩, kind⟩, hd⟩ := rep.inv.created.mp hd
    exact ⟨kind, fun hkind => hdata ((rep.kind_iff hd).2.2.2.mp hkind), hd⟩

/-- The entry of a page of a slab. -/
theorem entry_mapped (rep : Represented Holds c s g) {d p : Nat} (hd : d ∈ s.heap.created)
    (hdata : (s.heap.desc d).data ≠ 0) (hp : p ∈ (c.run (s.heap.desc d).data).pages) :
    s.heap.tree.entry p % 2 ^ 48 = d := by
  rw [rep.inv.entry (rep.mapped_iff.mpr ⟨hd, hdata⟩) p hp]
  have := rep.inv.small d hd
  omega

theorem wellShaped (law : Lawful B Holds) (rep : Represented Holds c s g) :
    WellShaped s fun kind => g.rings ((), kind) := by
  have hconf := rep.inv.configured ()
  have ring_of_created : ∀ d ∈ s.heap.created, ∃ kind, d ∈ g.rings ((), kind) := fun d hd => by
    obtain ⟨⟨⟨⟩, kind⟩, hd⟩ := rep.inv.created.mp hd
    exact ⟨kind, hd⟩
  have mem_iff : ∀ {d kind a}, d ∈ g.rings ((), kind) → (d ∈ g.rings ((), a) ↔ kind = a) :=
    fun {d kind a} hd => ⟨fun ha => rep.ring_unique hd ha, fun e => e ▸ hd⟩
  refine ⟨fun d hd => ?_, fun kind => rep.inv.threads.nodup _, fun kind d hd =>
    rep.inv.created.mpr ⟨_, hd⟩, fun d hd => ?_, fun d hd => ?_, fun d hd => ?_, fun d hd => ?_,
    rep.inv.emptyCount (), fun kind => rep.inv.threads.ring _, fun kind =>
    rep.inv.threads.start_eq ((), kind), fun kind => rep.inv.threads.start_eq_null_iff ((), kind),
    fun d hd => ?_, fun d hd hdata p hp => ?_, fun p hp d hd => ?_⟩
  · obtain ⟨kind, hd⟩ := ring_of_created d hd
    exact ⟨kind, hd, fun a ha => rep.ring_unique ha hd⟩
  · obtain ⟨kind, hd⟩ := ring_of_created d hd
    rw [mem_iff hd, (rep.kind_iff hd).1, hconf.count]
  · obtain ⟨kind, hd⟩ := ring_of_created d hd
    rw [mem_iff hd, (rep.kind_iff hd).2.1, hconf.count]
  · obtain ⟨kind, hd⟩ := ring_of_created d hd
    rw [mem_iff hd, (rep.kind_iff hd).2.2.1]
  · obtain ⟨kind, hd⟩ := ring_of_created d hd
    rw [mem_iff hd, (rep.kind_iff hd).2.2.2]
  · have page := rep.inv.page hd
    have hmap : g.Mapped () d := ⟨.partially, by decide, hd⟩
    refine ⟨g.free d, page.2.1.chain, ?_, page.2.1.nodup, fun x hx => ⟨?_, fun hout => ?_⟩⟩
    · have := page.2.1.sum
      rw [hconf.count]
      omega
    · rw [rep.config]
      exact page.2.1.sub x hx
    · rw [rep.out, Finset.mem_val] at hout
      obtain ⟨d', hd'⟩ := rep.inv.out.mp hout
      have := rep.inv.page_unique law hd'.inUse.mapped hmap hd'.chunk (page.2.1.sub x hx)
      exact hd'.notFree (this ▸ hx)
  · rw [hconf.pgNum] at hp
    exact rep.entry_mapped hd hdata hp
  · by_cases hheld : HeldPage (runs (fun _ => c) s.heap.desc g) p
    · obtain ⟨blk, ⟨⟨⟩, d', hmap, rfl⟩, hpage⟩ := hheld
      obtain ⟨hd', hdata'⟩ := rep.mapped_iff.mp hmap
      refine absurd ?_ (hp d' hd' hdata')
      rw [hconf.pgNum]
      exact hpage
    · rw [law.tags rep.inv.holds hheld]
      obtain ⟨i, hd⟩ := rep.inv.created.mp hd
      have := rep.inv.ne_zero hd
      omega

end Represented

theorem deallocateBatch_null (fuel : Nat) (slab : SCAllocator) (heap : Heap σ) :
    SCAllocator.deallocateBatch B fuel slab heap 0 = some (slab, heap) := by
  cases fuel <;> exact if_pos rfl

/-- More rounds than needed change nothing. -/
theorem deallocateBatch_mono {fuel fuel' : Nat} {slab : SCAllocator} {heap : Heap σ} {head : Nat}
    {r : SCAllocator × Heap σ} (hle : fuel ≤ fuel')
    (h : SCAllocator.deallocateBatch B fuel slab heap head = some r) :
    SCAllocator.deallocateBatch B fuel' slab heap head = some r := by
  induction fuel generalizing fuel' slab heap head with
  | zero =>
      obtain ⟨rfl, hr⟩ := Option.ite_none_right_eq_some.mp h
      rwa [deallocateBatch_null]
  | succ fuel ih =>
      obtain ⟨fuel', rfl⟩ : ∃ n, fuel' = n + 1 := ⟨fuel' - 1, by omega⟩
      rw [SCAllocator.deallocateBatch] at h ⊢
      by_cases h0 : head = 0
      · rwa [if_pos h0] at h ⊢
      · rw [if_neg h0] at h ⊢
        obtain ⟨⟨slab₁, heap₁, head₁⟩, hhead, hrest⟩ := Option.bind_eq_some_iff.mp h
        exact Option.bind_eq_some_iff.mpr ⟨_, hhead, ih (by omega) hrest⟩

/-- The chunks an answer stands for are the chunks that have left. -/
theorem Granted.handed_eq {cfg : Unit → Config} {h h' : Heap σ} {g g' : Ghost Unit}
    {ptr n : Nat} {stride : Option Nat} {l : List Nat}
    (granted : Granted cfg h h' g g' () ptr n stride l) : handed h'.mem (ptr, n, stride) = l := by
  cases stride with
  | none =>
      rw [handed, ← granted.length]
      exact (granted.linked rfl).follow_length
  | some a =>
      obtain ⟨rfl, hl⟩ := granted.row a rfl
      have hlength := granted.length
      rw [hl, Config.length_chunks] at hlength
      rw [handed, hl, ← hlength]
      rfl

theorem update_unit {α : Type} (a b : α) :
    Function.update (fun _ : Unit => a) () b = fun _ => b :=
  funext fun x => by
    cases x
    exact Function.update_self _ _ _

/-- The parameters of the allocator are sound once a run has been registered. -/
structure Config.Sized (c : Config) : Prop where
  num_pos : 0 < c.pgNum
  sound : ∀ {ptr}, InsertFits (c.run ptr) → c.Ok

/-- The runs the backend can grant can be registered. -/
def Grants (B : PageBackend σ) (Holds : σ → Mem → RadixTree → Set Block → Prop) (num : Nat) :
    Prop :=
  ∀ {back mem tree held ptr r}, Holds back mem tree held →
    B.alloc back mem tree (PAGE_SIZE * num) = some (ptr, r) → InsertFits ⟨ptr, num⟩

namespace Represented

variable {c : Config} {g : Ghost Unit}

/-- The chunks that have left are out. -/
theorem granted (rep : Represented Holds c s g) {slab : SCAllocator} {heap : Heap σ}
    {ptr n : Nat} {stride : Option Nat} {g' : Ghost Unit} {l : List Nat}
    (inv' : Inv (fun _ => c) Holds (Function.update (fun _ => s.slab) () slab) heap g')
    (granted : Granted (fun _ => c) s.heap heap g g' () ptr n stride l) :
    Represented Holds c ⟨slab, heap, handed heap.mem (ptr, n, stride) + s.out⟩ g' := by
  refine ⟨?_, ?_⟩
  · rwa [update_unit] at inv'
  · rw [granted.handed_eq, granted.out, Function.update_self, rep.out]
    refine (Multiset.Nodup.ext ?_ (Finset.nodup _)).mpr fun x => ?_
    · refine Multiset.nodup_add.mpr ⟨granted.nodup, Finset.nodup _, ?_⟩
      exact Multiset.disjoint_left.mpr fun hx hx' => granted.fresh _ hx hx'
    · simp [or_comm]

/-- A call of `allocate_batch_v2` that returns. Its run has been registered, so it is as
`allocate_spec` says. -/
theorem allocated (law : Lawful B Holds) (rep : Represented Holds c s g) (sized : c.Sized)
    {align mapped : Nat} (fresh : s.heap.pgBump.Exhausted → FreshDescs s.heap.created mapped)
    {slab : SCAllocator} {heap : Heap σ} {ans : Nat × Nat × Option Nat}
    (hcall : s.slab.allocateBatchV2 B s.heap align mapped = some (slab, heap, ans)) :
    ∃ g' l, Inv (fun _ => c) Holds (Function.update (fun _ => s.slab) () slab) heap g' ∧
      Granted (fun _ => c) s.heap heap g g' () ans.1 ans.2.1 ans.2.2 l ∧
      (ans.2.2 = none → align = 1) := by
  obtain ⟨slab', heap', ptr, n, stride, g', l, hcall', inv', granted, halign⟩ | ⟨hnone, -⟩ :=
    allocate_spec law rep.inv align (fun _ _ _ => fresh) (k := ()) fun hs he ptr r halloc => by
      have hfits := insertFits_of_call law rep.inv (k := ()) sized.num_pos hs he hcall halloc
      exact ⟨sized.sound hfits, hfits⟩
  · cases hcall.symm.trans hcall'
    exact ⟨g', l, inv', granted, halign⟩
  · cases hcall.symm.trans hnone

/-- What `allocate_batch_v2` does to a represented state. -/
theorem allocate (law : Lawful B Holds) (rep : Represented Holds c s g) (sized : c.Sized)
    (grants : Grants B Holds c.pgNum) (align : Nat) {mapped : Nat}
    (fresh : s.heap.pgBump.Exhausted → FreshDescs s.heap.created mapped) :
    (∃ slab heap ans g', s.slab.allocateBatchV2 B s.heap align mapped = some (slab, heap, ans) ∧
      Represented Holds c ⟨slab, heap, handed heap.mem ans + s.out⟩ g') ∨
    s.slab.allocateBatchV2 B s.heap align mapped = none ∧
      B.alloc s.heap.back s.heap.mem s.heap.tree (PAGE_SIZE * c.pgNum) = none := by
  obtain ⟨slab, heap, ptr, n, stride, g', l, hcall, inv', granted, -⟩ | hnone :=
    allocate_spec law rep.inv align (fun _ _ _ => fresh) (k := ()) fun _ _ ptr r halloc => by
      have hfits := grants rep.inv.holds halloc
      exact ⟨sized.sound hfits, hfits⟩
  · exact .inl ⟨slab, heap, (ptr, n, stride), g', hcall, rep.granted inv' granted⟩
  · exact .inr hnone

/-- The chunks that have come back are not out any more. -/
theorem returned (rep : Represented Holds c s g) {slab : SCAllocator} {heap : Heap σ}
    {g' : Ghost Unit} {chain : List Nat}
    (inv' : Inv (fun _ => c) Holds (Function.update (fun _ => s.slab) () slab) heap g')
    (ret : Returned (fun _ => c) s.heap heap g g' () chain) :
    Represented Holds c ⟨slab, heap, s.out - chain⟩ g' := by
  refine ⟨?_, ?_⟩
  · rwa [update_unit] at inv'
  · rw [ret.out, Function.update_self, rep.out]
    refine (Multiset.Nodup.ext ?_ (Finset.nodup _)).mpr fun x => ?_
    · exact Multiset.nodup_of_le (Multiset.sub_le_self _ _) (Finset.nodup _)
    · rw [Multiset.mem_sub_of_nodup (Finset.nodup _), Finset.mem_val, Finset.mem_val,
        Finset.mem_sdiff, List.mem_toFinset, Multiset.mem_coe]

/-- The rounds of `deallocate_batch` in a represented state. -/
theorem rounds (law : Lawful B Holds) (rep : Represented Holds c s g) {chain : List Nat}
    {head : Nat} (linked : Segment s.heap.mem head chain 0) (nodup : chain.Nodup)
    (out : ∀ x ∈ chain, x ∈ s.out) :
    (∃ pieces slab heap g', pieces.flatten = chain ∧
      Rounds B s.slab s.heap head pieces slab heap ∧
      Represented Holds c ⟨slab, heap, s.out - chain⟩ g') ∨
    (∀ fuel, SCAllocator.deallocateBatch B fuel s.slab s.heap head = none) ∧
      ¬Clears Holds c.pgNum := by
  rw [rep.out] at out
  obtain ⟨pieces, slab, heap, g', hflat, rounds, inv', ret⟩ | hnone :=
    exists_rounds law rep.inv linked nodup out
  · exact .inl ⟨pieces, slab, heap, g', hflat, rounds, rep.returned inv' ret⟩
  · exact .inr hnone

/-- What `deallocate_batch` does to a represented state. -/
theorem deallocate (law : Lawful B Holds) (rep : Represented Holds c s g) {chain : List Nat}
    {head fuel : Nat} (linked : Segment s.heap.mem head chain 0) (nodup : chain.Nodup)
    (out : ∀ x ∈ chain, x ∈ s.out) (hfuel : chain.length ≤ fuel) :
    (∃ slab heap g', SCAllocator.deallocateBatch B fuel s.slab s.heap head = some (slab, heap) ∧
      Represented Holds c ⟨slab, heap, s.out - chain⟩ g') ∨
    (∀ fuel, SCAllocator.deallocateBatch B fuel s.slab s.heap head = none) ∧
      ¬Clears Holds c.pgNum := by
  obtain ⟨pieces, slab, heap, g', rfl, rounds, rep'⟩ | hnone := rep.rounds law linked nodup out
  · exact .inl ⟨slab, heap, g', rounds.deallocateBatch (rounds.length_le.trans hfuel), rep'⟩
  · exact .inr hnone

/-- The callers write to their chunks only. -/
theorem store (law : Lawful B Holds) (rep : Represented Holds c s g) {mem : Mem}
    (same : ∀ a, (∀ x ∈ s.out, ¬(x ≤ a ∧ a < x + asUsize s.slab.pgAlign)) →
      mem a = s.heap.mem a) :
    Represented Holds c { s with heap := { s.heap with mem } } g := by
  refine ⟨rep.inv.write law fun a ha => same a fun x hx => ?_, rep.out⟩
  rw [rep.out, Finset.mem_val] at hx
  rw [(rep.inv.configured ()).align]
  exact ha () x hx

end Represented

theorem represented_new {mem : Mem} {back : σ} (sizeClass numOsPages : Nat)
    (holds : Holds back mem TreeNode.zeroed ∅) :
    Represented Holds (Config.of (SCAllocator.new sizeClass numOsPages))
      (State.new sizeClass numOsPages mem back) Ghost.new where
  inv := inv_new (fun _ => sizeClass) (fun _ => numOsPages) rfl PageBumpAlloc.ok_new holds
  out := rfl

theorem represented_run (law : Lawful B Holds) {c : Config} (sized : c.Sized) {s₀ : State σ}
    {g₀ : Ghost Unit} (start : Represented Holds c s₀ g₀) {tr : List Event}
    (run : Run (Step B) s₀ tr s) : ∃ g, Represented Holds c s g := by
  refine run.invariant (I := fun s => ∃ g, Represented Holds c s g) ⟨g₀, start⟩ ?_
  rintro s e s' ⟨g, rep⟩ step
  cases step with
  | allocate align mapped fresh call =>
      obtain ⟨g', l, inv', granted, -⟩ := rep.allocated law sized fresh call
      exact ⟨g', rep.granted inv' granted⟩
  | deallocate chain head fuel linked nodup out call =>
      obtain ⟨slab, heap, g', hcall, rep'⟩ | ⟨hnone, -⟩ :=
        rep.deallocate law linked nodup out (le_max_left chain.length fuel)
      · cases hcall.symm.trans (deallocateBatch_mono (le_max_right chain.length fuel) call)
        exact ⟨g', rep'⟩
      · cases (hnone fuel).symm.trans call
  | store mem same => exact ⟨g, rep.store law same⟩

theorem pgNum_new {sizeClass : Nat} (numOsPages : Nat) (hsize : 8 ≤ sizeClass) :
    (Config.of (SCAllocator.new sizeClass numOsPages)).pgNum = numOsPages := by
  rw [Config.of, SCAllocator.new, if_neg (by omega)]

theorem sized_new {sizeClass numOsPages : Nat} (hsize : 8 ≤ sizeClass)
    (hle : sizeClass ≤ PAGE_SIZE * numOsPages) :
    (Config.of (SCAllocator.new sizeClass numOsPages)).Sized where
  num_pos := by
    rw [pgNum_new numOsPages hsize]
    exact Nat.pos_of_mul_pos_left (by omega : 0 < PAGE_SIZE * numOsPages)
  sound := fun {ptr} hfits => by
    rw [Config.run, pgNum_new numOsPages hsize] at hfits
    exact SCAllocator.config_ok (by omega) hle (num_le_of_insertFits hfits)

/-- When every run that the backend grants has a property, every run that is out has it. -/
theorem Lawful.restrict (law : Lawful B Holds) {P : Block → Prop}
    (granted : ∀ {back mem tree held ptr num r}, Holds back mem tree held →
      B.alloc back mem tree (PAGE_SIZE * num) = some (ptr, r) → P ⟨ptr, num⟩) :
    Lawful B fun back mem tree held => Holds back mem tree held ∧ ∀ b ∈ held, P b where
  placed h hb := law.placed h.1 hb
  apart h hb hc hbc := law.apart h.1 hb hc hbc
  tags h hp := law.tags h.1 hp
  use h hmem hentry := ⟨law.use h.1 hmem hentry, h.2⟩
  alloc h hnum halloc := by
    obtain ⟨holds, hnew, same, cleared⟩ := law.alloc h.1 hnum halloc
    refine ⟨⟨holds, ?_⟩, hnew, same, cleared⟩
    rintro b (rfl | hb)
    · exact granted h.1 halloc
    · exact h.2 b hb
  dealloc h hb hzero := by
    obtain ⟨back, mem, tree, hdealloc, holds, same⟩ := law.dealloc h.1 hb hzero
    exact ⟨back, mem, tree, hdealloc, ⟨holds, fun b hb => h.2 b hb.1⟩, same⟩

/-- When the runs of `num` pages that the backend grants can be cleared, those that are out
can. -/
theorem exists_clears (law : Lawful B Holds) {num : Nat}
    (granted : ∀ {back mem tree held ptr r}, Holds back mem tree held →
      B.alloc back mem tree (PAGE_SIZE * num) = some (ptr, r) → RemoveFits ⟨ptr, num⟩) :
    ∃ Holds' : σ → Mem → RadixTree → Set Block → Prop, Lawful B Holds' ∧ Clears Holds' num ∧
      (∀ {back mem tree}, Holds back mem tree ∅ → Holds' back mem tree ∅) ∧
      ∀ {back mem tree held}, Holds' back mem tree held → Holds back mem tree held := by
  refine ⟨_, law.restrict (P := fun b => b.num = num → RemoveFits b) ?_,
    fun holds hb hnum => holds.2 _ hb hnum, fun holds => ⟨holds, fun b hb => absurd hb id⟩,
    fun holds => holds.1⟩
  rintro back mem tree held ptr n r holds halloc rfl
  exact granted holds halloc

/-- In every run of calls on an allocator the rings, the free lists and the radix tree are in
order between the calls, and the next call returns, provided every run of pages that the
backend grants can be registered. -/
theorem slab_invariant {sizeClass numOsPages : Nat} {mem : Mem} {back : σ} {tr : List Event}
    (law : Lawful B Holds) (hsize : 8 ≤ sizeClass) (hle : sizeClass ≤ PAGE_SIZE * numOsPages)
    (fits : ∀ {back mem tree held ptr r}, Holds back mem tree held →
      B.alloc back mem tree (PAGE_SIZE * numOsPages) = some (ptr, r) → RadixFits ⟨ptr, numOsPages⟩)
    (start : Holds back mem TreeNode.zeroed ∅)
    (run : Run (Step B) (State.new sizeClass numOsPages mem back) tr s) :
    (∃ rings, WellShaped s rings) ∧
    (∀ align mapped, (s.heap.pgBump.Exhausted → FreshDescs s.heap.created mapped) →
      s.slab.allocateBatchV2 B s.heap align mapped = none →
        B.alloc s.heap.back s.heap.mem s.heap.tree (PAGE_SIZE * numOsPages) = none) ∧
    ∀ chain head, Segment s.heap.mem head chain 0 → chain.Nodup → (∀ x ∈ chain, x ∈ s.out) →
      ∀ fuel, chain.length ≤ fuel →
        SCAllocator.deallocateBatch B fuel s.slab s.heap head ≠ none := by
  have hpgNum := pgNum_new numOsPages hsize
  have sized := sized_new hsize hle
  obtain ⟨Holds', law', clears, hnew, hold⟩ :=
    exists_clears law fun holds halloc => (fits holds halloc).2
  rw [← hpgNum] at clears
  have grants : Grants B Holds' (Config.of (SCAllocator.new sizeClass numOsPages)).pgNum := by
    rw [hpgNum]
    exact fun holds halloc => (fits (hold holds) halloc).1
  obtain ⟨g, rep⟩ :=
    represented_run law' sized (represented_new sizeClass numOsPages (hnew start)) run
  refine ⟨⟨_, rep.wellShaped law'⟩, fun align mapped fresh hnone => ?_,
    fun chain head linked nodup out fuel hfuel => ?_⟩
  · obtain ⟨slab, heap, ans, g', hcall, -⟩ | ⟨-, halloc⟩ :=
      rep.allocate law' sized grants align fresh
    · rw [hnone] at hcall
      cases hcall
    · rwa [hpgNum] at halloc
  · obtain ⟨slab, heap, g', hcall, -⟩ :=
      (rep.deallocate law' linked nodup out hfuel).resolve_right fun h => h.2 clears
    rw [hcall]
    exact Option.some_ne_none _

/-- The chunks of a page of `1024` bytes each are handed out, two of them come back and
go out again, and at last all four come back. -/
def fourChunks : List Move :=
  [.allocate 1 0x7f0000000000, .store 0x1fff000 0x1fff800, .store 0x1fff800 0,
    .deallocate [0x1fff000, 0x1fff800], .allocate 1 0, .store 0x1fff000 0x1fffc00,
    .store 0x1fffc00 0x1fff800, .store 0x1fff800 0x1fff400, .store 0x1fff400 0,
    .deallocate [0x1fff000, 0x1fffc00, 0x1fff800, 0x1fff400]]

theorem slab_invariant_fourChunks :
    let s := Path.last (State.new 1024 1 (fun _ => 0) (0x1000000, 0x2000000))
      (play (State.move carving) (State.new 1024 1 (fun _ => 0) (0x1000000, 0x2000000)) fourChunks)
    ∃ rings, WellShaped s rings :=
  (slab_invariant carving_lawful (by decide : 8 ≤ 1024) (by decide : 1024 ≤ PAGE_SIZE * 1)
    (fun _ _ => radixFits_of_le (by decide : 1 ≤ 4097)) carved_region
    (play_path (fun h => State.move_step carving h) _ fourChunks).run).1

/-- Without a condition on the runs that the backend grants. -/
def AlwaysInOrder (B : PageBackend σ) (Holds : σ → Mem → RadixTree → Set Block → Prop) : Prop :=
  ∀ (sizeClass numOsPages : Nat) (mem : Mem) (back : σ) (tr : List Event) (s : State σ),
    8 ≤ sizeClass → sizeClass ≤ PAGE_SIZE * numOsPages → Holds back mem TreeNode.zeroed ∅ →
      Run (Step B) (State.new sizeClass numOsPages mem back) tr s →
        (∃ rings, WellShaped s rings) ∧
        ∀ align mapped, (s.heap.pgBump.Exhausted → FreshDescs s.heap.created mapped) →
          s.slab.allocateBatchV2 B s.heap align mapped = none →
            B.alloc s.heap.back s.heap.mem s.heap.tree (PAGE_SIZE * numOsPages) = none

/-- The descriptor has got its `65538` pages when their registration panics, and it is on
no ring. -/
theorem wide_run_stranded :
    let s := State.new 8 65538 (fun _ => 0) (4096, 1073745920)
    (∃ r ∈ s.slab.getEmpty carving s.heap 0x7f0000000000,
      r.2.2.1 ∈ r.2.1.created ∧ (r.2.1.desc r.2.2.1).data ≠ 0 ∧ (∀ kind, r.1.start kind = 0) ∧
      ∀ ptr ∈ r.2.2.2, SCAllocator.handleRdTreeInsert r.1.pgNum r.2.1.tree r.2.2.1 ptr = none) ∧
    ¬AlwaysInOrder carving Carved := by
  intro s
  have hget : ∃ r ∈ s.slab.getEmpty carving s.heap 0x7f0000000000,
      r.2.2.1 ∈ r.2.1.created ∧ (r.2.1.desc r.2.2.1).data ≠ 0 ∧
      (∀ kind ∈ [Kind.full, .partially, .empty, .uninit], r.1.start kind = 0) ∧
      r.1.pgNum = 65538 ∧ r.2.2.2 = some 805302272 := by decide +kernel
  obtain ⟨r, hr, hcreated, hdata, hstart, hnum, hptr⟩ := hget
  have hpanic : ∀ ptr ∈ r.2.2.2,
      SCAllocator.handleRdTreeInsert r.1.pgNum r.2.1.tree r.2.2.1 ptr = none := by
    intro ptr hmem
    obtain rfl : 805302272 = ptr := Option.some.inj (hptr.symm.trans hmem)
    rw [hnum]
    refine handleRdTreeInsert_eq_none _ _ ⟨?_, ?_, ?_, ?_⟩ ?_
    all_goals simp [PG_SIZE, PAGE_SIZE, InsertFits, PieceFits]
  refine ⟨⟨r, hr, hcreated, hdata, fun kind => hstart kind (by cases kind <;> decide), hpanic⟩,
    fun always => ?_⟩
  have order := (always 8 65538 _ _ [] s (by decide) (by decide)
    (carved_empty _ (by decide) (by decide)) .nil).2 1 0x7f0000000000 fun _ => by decide
  refine absurd (order ?_) (by decide +kernel)
  rw [SCAllocator.allocateBatchV2, if_neg (fun h => h.1 rfl), Option.mem_def.mp hr]
  obtain ⟨slab, heap, d, ptr⟩ := r
  obtain rfl : ptr = some 805302272 := hptr
  exact congrArg (Option.bind · _) (hpanic _ rfl)

end UniAlloc.Slab
