import UniAlloc.Separate.Deallocate
import UniAlloc.Slab.Geometry
import UniAlloc.Transition.Basic

/-!
# A separate slab allocator and its callers

Sequences of the five calls on one allocator. In every run the pages, their bits and the
rings are in order between the calls, every chunk handed out is a chunk of a page that was
not out, and no call panics.
-/

namespace UniAlloc.Separate

open FreeList (Block PG_SIZE)
open Radix Transition
open Slab (Config HeldPage Kind Lawful PAGE_SIZE PageBackend RadixFits SameOn)

/-- The allocator, the heap, and the chunks handed out and not yet returned. -/
structure State (σ : Type) where
  slab : SCAllocator
  heap : Heap σ
  out : Multiset Nat

inductive Event where
  | allocated (chunks : List Nat)
  | deallocated (chunks : List Nat)
  | stored

variable {σ : Type} (B : PageBackend σ)

def State.new (sizeClass numOsPages : Nat) (mem : Mem) (back : σ) : State σ :=
  ⟨SCAllocator.new sizeClass numOsPages, ⟨mem, TreeNode.zeroed, back⟩, 0⟩

inductive Step : State σ → Event → State σ → Prop where
  | allocate {s slab heap ans} (align)
      (call : s.slab.allocate B s.heap align = .ok (slab, heap, ans)) :
      Step s (.allocated ans.toList) ⟨slab, heap, ans.toList + s.out⟩
  | allocateBatchV2 {s slab heap resArray' res} (resArray countP)
      (call : s.slab.allocateBatchV2 B s.heap resArray countP = .ok (slab, heap, resArray', res)) :
      Step s (.allocated (resArray'.take (min countP resArray.length)))
        ⟨slab, heap, resArray'.take (min countP resArray.length) + s.out⟩
  | allocateBatch {s slab heap ans} (align)
      (call : s.slab.allocateBatch B s.heap align = .ok (slab, heap, ans)) :
      Step s (.allocated (handed ans)) ⟨slab, heap, handed ans + s.out⟩
  | deallocate {s slab heap} (x) (out : x ∈ s.out)
      (call : s.slab.deallocate B s.heap x = some (slab, heap)) :
      Step s (.deallocated [x]) ⟨slab, heap, s.out - ([x] : List Nat)⟩
  /-- The whole array consists of chunks that are out. -/
  | deallocateBatch {s slab heap} (resArray) (nodup : resArray.Nodup)
      (out : ∀ x ∈ resArray, x ∈ s.out)
      (call : s.slab.deallocateBatch B s.heap resArray resArray.length = some (slab, heap)) :
      Step s (.deallocated resArray) ⟨slab, heap, s.out - resArray⟩
  /-- The callers write to the chunks they hold. -/
  | store {s} (mem)
      (same : ∀ a, (∀ x ∈ s.out, ¬(x ≤ a ∧ a < x + s.slab.pgAlign)) → mem a = s.heap.mem a) :
      Step s .stored { s with heap := { s.heap with mem } }

/-- The state of an allocator between two calls, in terms of the pages on its four rings. -/
structure WellShaped (s : State σ) (rings : Kind → List Nat) : Prop where
  one_ring : ∀ idx < s.slab.pages.len, ∃! kind, idx ∈ rings kind
  nodup : ∀ kind, (rings kind).Nodup
  lt : ∀ kind, ∀ idx ∈ rings kind, idx < s.slab.pages.len
  full : ∀ idx < s.slab.pages.len, idx ∈ rings .full ↔ (s.slab.page idx).counter = s.slab.pgCount
  /-- The rings are closed, and `prev` and `next` are inverse on them. -/
  ring : ∀ kind, LinkedRing s.slab.pages.prev s.slab.pages.next (rings kind)
  count : ∀ kind, s.slab.count kind = (rings kind).length
  start : ∀ kind, ∀ idx ∈ (rings kind).head?, s.slab.start kind = idx
  /-- A page counts the bits that are set. -/
  counter : ∀ idx < s.slab.pages.len,
    (s.slab.page idx).counter = (Words.ones (s.slab.row idx) s.slab.pgCount).card
  /-- The bits of its chunks that are out are set. -/
  bit : ∀ idx < s.slab.pages.len, (s.slab.page idx).data ≠ 0 → ∀ i < s.slab.pgCount,
    Words.bit (s.slab.row idx) i = true ↔ (s.slab.page idx).data + i * s.slab.pgAlign ∈ s.out
  /-- It counts its chunks that are out. -/
  outstanding : ∀ idx < s.slab.pages.len, (s.slab.page idx).data ≠ 0 →
    (s.slab.page idx).counter = ((Finset.range s.slab.pgCount).filter fun i =>
      (s.slab.page idx).data + i * s.slab.pgAlign ∈ s.out).card
  unmapped : ∀ idx < s.slab.pages.len, (s.slab.page idx).data = 0 → (s.slab.page idx).counter = 0
  out_nodup : s.out.Nodup
  chunk : ∀ x ∈ s.out, ∃ idx < s.slab.pages.len, ∃ i < s.slab.pgCount,
    (s.slab.page idx).data ≠ 0 ∧ x = (s.slab.page idx).data + i * s.slab.pgAlign
  /-- The radix tree leads from the pages of a run to its page. -/
  mapped : ∀ idx < s.slab.pages.len, (s.slab.page idx).data ≠ 0 →
    ∀ p ∈ (⟨(s.slab.page idx).data, s.slab.pgNum⟩ : Block).pages,
      s.heap.tree.entry p = (idx : Int) + 1

variable {B} {Holds : σ → Mem → RadixTree → Set Block → Prop} {s : State σ}

/-- The chunks that are out are those whose bits are set. -/
structure Represented (Holds : σ → Mem → RadixTree → Set Block → Prop) (c : Config)
    (s : State σ) (R : Kind → List Nat) : Prop where
  settled : Settled c Holds s.slab s.heap R
  nodup : s.out.Nodup
  out : ∀ x, x ∈ s.out ↔ Out c s.slab x

namespace Represented

variable {c : Config} {R R' : Kind → List Nat} {slab : SCAllocator} {heap : Heap σ}
  {chunks : List Nat}

/-- The ring of a page can be read off it, except for pages of which no chunk is out. -/
theorem full_iff (rep : Represented Holds c s R) {kind : Kind} {idx : Nat}
    (hidx : idx ∈ R kind) : kind = .full ↔ (s.slab.page idx).counter = c.count := by
  have belongs := rep.settled.filed.belongs hidx
  have hpos := rep.settled.pages.tight.count_pos
  cases kind with
  | full => exact iff_of_true rfl belongs.2
  | partially => exact iff_of_false nofun belongs.2.ne
  | empty => exact iff_of_false nofun (by rw [belongs.2]; exact hpos.ne)
  | uninit =>
      have hzero := rep.settled.pages.unmapped idx (rep.settled.lt hidx) belongs
      exact iff_of_false nofun (by rw [hzero]; exact hpos.ne)

theorem wellShaped (law : Lawful B Holds) (rep : Represented Holds c s R) : WellShaped s R := by
  have pages := rep.settled.pages
  have filed := rep.settled.filed
  obtain ⟨hnum, hcount, halign, -⟩ := pages.shaped
  refine ⟨?_, filed.threads.nodup, ?_, ?_, fun kind => (filed.threads.ring kind).linked,
    filed.threads.count, filed.threads.start, ?_, ?_, ?_, pages.unmapped, rep.nodup, ?_, ?_⟩
  · intro idx hlt
    obtain ⟨kind, hidx⟩ := filed.all idx hlt nofun
    exact ⟨kind, hidx, fun kind' hidx' => filed.threads.apart hidx' hidx⟩
  · intro kind idx hidx
    exact filed.lt hidx
  · intro idx hlt
    obtain ⟨kind, hidx⟩ := filed.all idx hlt nofun
    rw [hcount, ← rep.full_iff hidx]
    constructor
    · intro hfull
      exact filed.threads.apart hidx hfull
    · rintro rfl
      exact hidx
  · intro idx hlt
    rw [hcount]
    exact pages.counter idx hlt
  · intro idx hlt hdata i hi
    rw [hcount] at hi
    rw [halign, rep.out, pages.out_chunk_iff law ⟨hlt, hdata, hi, rfl⟩]
  · intro idx hlt hdata
    rw [hcount, halign, pages.counter idx hlt, Words.ones]
    congr 1
    apply Finset.filter_congr
    intro i hi
    rw [rep.out, pages.out_chunk_iff law ⟨hlt, hdata, Finset.mem_range.mp hi, rfl⟩]
  · intro x hx
    obtain ⟨idx, i, chunk, -⟩ := (rep.out x).mp hx
    rw [hcount, halign]
    exact ⟨idx, chunk.page, i, chunk.lt, chunk.mapped, chunk.eq⟩
  · intro idx hlt hdata p hp
    rw [hnum] at hp
    rw [pages.entry idx hlt hdata p hp, if_neg nofun]

/-- The chunks of an allocation join those that are out. -/
theorem gives (rep : Represented Holds c s R) (settled : Settled c Holds slab heap R')
    (gives : Gives c s.slab slab chunks) :
    Represented Holds c ⟨slab, heap, (chunks : Multiset Nat) + s.out⟩ R' := by
  refine ⟨settled, ?_, ?_⟩
  · refine Multiset.nodup_add.mpr ⟨gives.nodup, rep.nodup, ?_⟩
    exact Multiset.disjoint_left.mpr fun hx hx' => gives.fresh _ hx ((rep.out _).mp hx')
  · intro x
    rw [Multiset.mem_add, rep.out, gives.out, Multiset.mem_coe, or_comm]

/-- The chunks of a deallocation leave those that are out. -/
theorem returns (rep : Represented Holds c s R) (settled : Settled c Holds slab heap R')
    (returns : Returns c s.slab slab chunks) :
    Represented Holds c ⟨slab, heap, s.out - (chunks : Multiset Nat)⟩ R' := by
  refine ⟨settled, Multiset.nodup_of_le (Multiset.sub_le_self _ _) rep.nodup, ?_⟩
  intro x
  rw [Multiset.mem_sub_of_nodup rep.nodup, returns.out, rep.out, Multiset.mem_coe]

/-- The callers write to their chunks only. -/
theorem store (law : Lawful B Holds) (rep : Represented Holds c s R) {mem : Mem}
    (same : ∀ a, (∀ x ∈ s.out, ¬(x ≤ a ∧ a < x + s.slab.pgAlign)) → mem a = s.heap.mem a) :
    Represented Holds c { s with heap := { s.heap with mem } } R := by
  have pages := rep.settled.pages
  refine ⟨⟨{ pages with holds := ?_ }, rep.settled.filed⟩, rep.nodup, rep.out⟩
  refine law.use pages.holds (fun a ha => same a ?_) fun p => .inl rfl
  rintro x hx ⟨hle, hlt⟩
  obtain ⟨idx, i, chunk, -⟩ := (rep.out x).mp hx
  rw [pages.shaped.pgAlign] at hlt
  refine ha ⟨_, ⟨idx, chunk.page, chunk.mapped, rfl⟩, ?_⟩
  exact pages.tight.chunk_page (pages.placed law chunk.page chunk.mapped)
    (Config.mem_chunks.mpr ⟨i, chunk.lt, chunk.eq.symm⟩) hle hlt

/-- An array that ends with the batch. -/
theorem deallocateAll (law : Lawful B Holds) (rep : Represented Holds c s R) {resArray : List Nat}
    (nodup : resArray.Nodup) (out : ∀ x ∈ resArray, x ∈ s.out) :
    ∃ slab heap R', s.slab.deallocateBatch B s.heap resArray resArray.length = some (slab, heap) ∧
      Settled c Holds slab heap R' ∧ Returns c s.slab slab resArray := by
  have hmin : min resArray.length resArray.length = resArray.length := Nat.min_self _
  have htake : resArray.take resArray.length = resArray := List.take_length
  have hspec := rep.settled.deallocateBatch_spec law resArray resArray.length
  rw [hmin, htake] at hspec
  refine hspec nodup (fun x hx => (rep.out x).mp (out x hx)) (.inr ?_)
  intro x _ y hy
  rw [List.getElem?_eq_none le_rfl] at hy
  exact absurd hy nofun

/-- One call, or a store, from a state in order to the next one. -/
theorem step (law : Lawful B Holds) (grants : Grants B Holds c) (rep : Represented Holds c s R)
    {e : Event} {s' : State σ} (step : Step B s e s') : ∃ R', Represented Holds c s' R' := by
  cases step with
  | allocate align call =>
      obtain ⟨slab, heap, R', x, hcall, settled, gives, -⟩ |
        ⟨slab, heap, R', idx, hcall, settled, gives, -⟩ | ⟨hcall, -⟩ :=
        rep.settled.allocate_spec law grants align
      · rw [call] at hcall
        cases hcall
        exact ⟨R', rep.gives settled gives⟩
      · rw [call] at hcall
        cases hcall
        exact ⟨R', rep.gives settled gives⟩
      · rw [call] at hcall
        cases hcall
  | allocateBatchV2 resArray countP call =>
      obtain ⟨slab, heap, R', resArray', res, hcall, settled, gives⟩ | hcall :=
        rep.settled.allocateBatchV2_spec law grants resArray countP
      · rw [call] at hcall
        cases hcall
        exact ⟨R', rep.gives settled gives⟩
      · rw [call] at hcall
        cases hcall
  | allocateBatch align call =>
      obtain ⟨slab, heap, R', ans, hcall, settled, gives⟩ | hcall :=
        rep.settled.allocateBatch_spec law grants align
      · rw [call] at hcall
        cases hcall
        exact ⟨R', rep.gives settled gives⟩
      · rw [call] at hcall
        cases hcall
  | deallocate x out call =>
      obtain ⟨slab, heap, R', hcall, settled, returns⟩ :=
        rep.settled.deallocate_spec law ((rep.out x).mp out)
      rw [call] at hcall
      cases hcall
      exact ⟨R', rep.returns settled returns⟩
  | deallocateBatch resArray nodup out call =>
      obtain ⟨slab, heap, R', hcall, settled, returns⟩ :=
        rep.deallocateAll law nodup out
      rw [call] at hcall
      cases hcall
      exact ⟨R', rep.returns settled returns⟩
  | store mem same => exact ⟨R, rep.store law same⟩

end Represented

/-- A call with its arguments. -/
inductive Move where
  | allocate (align : Nat)
  | allocateBatchV2 (resArray : List Nat) (countP : Nat)
  | allocateBatch (align : Nat)
  | deallocate (x : Nat)
  | deallocateBatch (resArray : List Nat)

/-- The step a move stands for, if it is possible. -/
def State.move (B : PageBackend σ) (s : State σ) : Move → Option (Event × State σ)
  | .allocate align => do
      let (slab, heap, ans) ← (s.slab.allocate B s.heap align).toOption
      some (.allocated ans.toList, ⟨slab, heap, ans.toList + s.out⟩)
  | .allocateBatchV2 resArray countP => do
      let (slab, heap, resArray', _) ← (s.slab.allocateBatchV2 B s.heap resArray countP).toOption
      some (.allocated (resArray'.take (min countP resArray.length)),
        ⟨slab, heap, resArray'.take (min countP resArray.length) + s.out⟩)
  | .allocateBatch align => do
      let (slab, heap, ans) ← (s.slab.allocateBatch B s.heap align).toOption
      some (.allocated (handed ans), ⟨slab, heap, handed ans + s.out⟩)
  | .deallocate x =>
      if x ∈ s.out then do
        let (slab, heap) ← s.slab.deallocate B s.heap x
        some (.deallocated [x], ⟨slab, heap, s.out - ([x] : List Nat)⟩)
      else none
  | .deallocateBatch resArray =>
      if resArray.Nodup ∧ ∀ x ∈ resArray, x ∈ s.out then do
        let (slab, heap) ← s.slab.deallocateBatch B s.heap resArray resArray.length
        some (.deallocated resArray, ⟨slab, heap, s.out - resArray⟩)
      else none

theorem ok_of_toOption {α : Type} {r : Except Stop α} {a : α} (h : r.toOption = some a) :
    r = .ok a := by
  cases r with
  | error e => exact absurd h nofun
  | ok b => exact congrArg Except.ok (Option.some.inj h)

theorem State.move_step {m : Move} {x : Event × State σ} (h : s.move B m = some x) :
    Step B s x.1 x.2 := by
  cases m with
  | allocate align =>
      obtain ⟨⟨slab, heap, ans⟩, call, hx⟩ := Option.bind_eq_some_iff.mp h
      cases hx
      exact Step.allocate align (ok_of_toOption call)
  | allocateBatchV2 resArray countP =>
      obtain ⟨⟨slab, heap, resArray', res⟩, call, hx⟩ := Option.bind_eq_some_iff.mp h
      cases hx
      exact Step.allocateBatchV2 resArray countP (ok_of_toOption call)
  | allocateBatch align =>
      obtain ⟨⟨slab, heap, ans⟩, call, hx⟩ := Option.bind_eq_some_iff.mp h
      cases hx
      exact Step.allocateBatch align (ok_of_toOption call)
  | deallocate x =>
      obtain ⟨out, h⟩ := Option.ite_none_right_eq_some.mp h
      obtain ⟨⟨slab, heap⟩, call, hx⟩ := Option.bind_eq_some_iff.mp h
      cases hx
      exact Step.deallocate _ out call
  | deallocateBatch resArray =>
      obtain ⟨⟨nodup, out⟩, h⟩ := Option.ite_none_right_eq_some.mp h
      obtain ⟨⟨slab, heap⟩, call, hx⟩ := Option.bind_eq_some_iff.mp h
      cases hx
      exact Step.deallocateBatch resArray nodup out call

/-- The parameters that `new` computes. -/
def configOf (sizeClass numOsPages : Nat) : Config :=
  ⟨numOsPages, Slab.SCAllocator.chunkCount sizeClass numOsPages,
    Slab.SCAllocator.chunkAlign sizeClass numOsPages⟩

section New

variable {sizeClass numOsPages : Nat}

theorem tight_of_new (hsize : 0 < sizeClass) (hle : sizeClass ≤ PAGE_SIZE * numOsPages) :
    Tight (configOf sizeClass numOsPages) := by
  obtain ⟨hfits, hexceeds⟩ := Slab.SCAllocator.chunks_fit hsize hle
  obtain ⟨halign, -⟩ := Slab.SCAllocator.strideIn_spec hsize hle
  refine ⟨⟨Nat.pos_of_ne_zero ?_, Nat.div_pos hle hsize, hsize.trans_le halign, hfits⟩, hexceeds⟩
  intro hzero
  have hnone : numOsPages = 0 := hzero
  rw [hnone, Nat.mul_zero] at hle
  omega

/-- A new allocator has no pages. -/
theorem represented_new {mem : Mem} {back : σ} (hsize : 0 < sizeClass)
    (hle : sizeClass ≤ PAGE_SIZE * numOsPages) (holds : Holds back mem TreeNode.zeroed ∅) :
    Represented Holds (configOf sizeClass numOsPages) (State.new sizeClass numOsPages mem back)
      fun _ => [] := by
  have hnew : SCAllocator.new sizeClass numOsPages = ⟨fun _ => 0, fun _ => 0, numOsPages,
      Slab.SCAllocator.chunkCount sizeClass numOsPages,
      Slab.SCAllocator.chunkAlign sizeClass numOsPages, [], .new⟩ := if_neg hsize.ne'
  have hlen : (SCAllocator.new sizeClass numOsPages).pages.len = 0 := by rw [hnew]; rfl
  have hnone : ∀ {idx}, ¬idx < (SCAllocator.new sizeClass numOsPages).pages.len := by
    intro idx hlt
    rw [hlen] at hlt
    exact absurd hlt (Nat.not_lt_zero idx)
  have hruns : runs (configOf sizeClass numOsPages) (SCAllocator.new sizeClass numOsPages) = ∅ := by
    apply Set.eq_empty_of_forall_notMem
    rintro b ⟨idx, hlt, -⟩
    exact hnone hlt
  refine ⟨⟨⟨tight_of_new hsize hle, ?_, fun _ hlt => absurd hlt hnone,
    fun _ hlt => absurd hlt hnone, ?_, fun _ hlt => absurd hlt hnone,
    fun _ hlt => absurd hlt hnone, ?_⟩, ⟨⟨fun _ hlt => absurd hlt hnone, fun _ => ?_, fun _ => ?_,
    nofun, nofun⟩, nofun, fun _ hlt => absurd hlt hnone, nofun⟩⟩, Multiset.nodup_zero, ?_⟩
  · rw [State.new, hnew]
    exact ⟨rfl, rfl, rfl, (Nat.zero_mul _).symm⟩
  · exact hruns.symm ▸ holds
  · exact hlen.trans_le (Nat.zero_le _)
  · exact ⟨List.nodup_nil, nofun, LinkedRing.nil⟩
  · rw [State.new, hnew]
    rfl
  · intro x
    constructor
    · intro hx
      exact absurd hx (Multiset.notMem_zero x)
    · rintro ⟨idx, i, chunk, -⟩
      exact absurd chunk.page hnone

end New

/-- Every state of a run is in order. -/
theorem represented_run (law : Lawful B Holds) {c : Config} (grants : Grants B Holds c)
    {s₀ : State σ} {R₀ : Kind → List Nat} (start : Represented Holds c s₀ R₀) {tr : List Event}
    (run : Run (Step B) s₀ tr s) : ∃ R, Represented Holds c s R := by
  refine run.invariant (I := fun s => ∃ R, Represented Holds c s R) ⟨R₀, start⟩ ?_
  rintro s e s' ⟨R, rep⟩ step
  exact rep.step law grants step

/-- The chunks a step hands out were not out, and they are chunks of the pages. -/
theorem Represented.handsOut (law : Lawful B Holds) {c : Config} {R : Kind → List Nat}
    (grants : Grants B Holds c) (rep : Represented Holds c s R) {chunks : List Nat} {s' : State σ}
    (step : Step B s (.allocated chunks) s') :
    chunks.Nodup ∧ ∀ x ∈ chunks, x ∉ s.out ∧ ∃ idx < s'.slab.pages.len, ∃ i < s'.slab.pgCount,
      x = (s'.slab.page idx).data + i * s'.slab.pgAlign := by
  obtain ⟨R', rep'⟩ := rep.step law grants step
  have hout : s'.out = chunks + s.out := by cases step <;> rfl
  have nodup := rep'.nodup
  rw [hout, Multiset.nodup_add] at nodup
  refine ⟨nodup.1, ?_⟩
  intro x hx
  have hx' : x ∈ s'.out := hout ▸ Multiset.mem_add.mpr (.inl hx)
  obtain ⟨idx, hlt, i, hi, -, heq⟩ := (rep'.wellShaped law).chunk x hx'
  exact ⟨fun h => Multiset.disjoint_left.mp nodup.2.2 hx h, idx, hlt, i, hi, heq⟩

/-- In every run the pages and the rings are in order, chunks are handed out once, and no
call panics, provided every run of pages that the backend grants can be registered. -/
theorem separate_invariant {sizeClass numOsPages : Nat} {mem : Mem} {back : σ} {tr : List Event}
    (law : Lawful B Holds) (hsize : 0 < sizeClass) (hle : sizeClass ≤ PAGE_SIZE * numOsPages)
    (fits : ∀ {back mem tree held ptr r}, Holds back mem tree held →
      B.alloc back mem tree (PAGE_SIZE * numOsPages) = some (ptr, r) → RadixFits ⟨ptr, numOsPages⟩)
    (start : Holds back mem TreeNode.zeroed ∅)
    (run : Run (Step B) (State.new sizeClass numOsPages mem back) tr s) :
    (∃ rings, WellShaped s rings) ∧
    (∀ chunks s', Step B s (.allocated chunks) s' → chunks.Nodup ∧ ∀ x ∈ chunks, x ∉ s.out ∧
      ∃ idx < s'.slab.pages.len, ∃ i < s'.slab.pgCount,
        x = (s'.slab.page idx).data + i * s'.slab.pgAlign) ∧
    (∀ align, s.slab.allocate B s.heap align ≠ .error .panic) ∧
    (∀ resArray countP, s.slab.allocateBatchV2 B s.heap resArray countP ≠ .error .panic) ∧
    (∀ align, s.slab.allocateBatch B s.heap align ≠ .error .panic) ∧
    (∀ x ∈ s.out, s.slab.deallocate B s.heap x ≠ none) ∧
    ∀ resArray : List Nat, resArray.Nodup → (∀ x ∈ resArray, x ∈ s.out) →
      s.slab.deallocateBatch B s.heap resArray resArray.length ≠ none := by
  have grants : Grants B Holds (configOf sizeClass numOsPages) := fun holds halloc =>
    fits holds halloc
  obtain ⟨R, rep⟩ := represented_run law grants (represented_new hsize hle start) run
  refine ⟨⟨R, rep.wellShaped law⟩, fun chunks s' step => rep.handsOut law grants step, ?_, ?_, ?_,
    ?_, ?_⟩
  · intro align
    obtain ⟨_, _, _, _, hcall, -⟩ | ⟨_, _, _, _, hcall, -⟩ | ⟨hcall, -⟩ :=
      rep.settled.allocate_spec law grants align
    all_goals
      rw [hcall]
      exact nofun
  · intro resArray countP
    obtain ⟨_, _, _, _, _, hcall, -⟩ | hcall :=
      rep.settled.allocateBatchV2_spec law grants resArray countP
    all_goals
      rw [hcall]
      exact nofun
  · intro align
    obtain ⟨_, _, _, _, hcall, -⟩ | hcall := rep.settled.allocateBatch_spec law grants align
    all_goals
      rw [hcall]
      exact nofun
  · intro x hx
    obtain ⟨_, _, _, hcall, -⟩ := rep.settled.deallocate_spec law ((rep.out x).mp hx)
    rw [hcall]
    exact nofun
  · intro resArray nodup out
    obtain ⟨_, _, _, hcall, -⟩ := rep.deallocateAll law nodup out
    rw [hcall]
    exact nofun

/-- Chunks of `1024` bytes: a batch of six needs a second page, and then a chunk, another
batch and a whole page come and go. -/
def sixChunks : List Move :=
  [.allocateBatchV2 [0, 0, 0, 0, 0, 0] 6, .allocate 2048, .allocateBatch 1,
    .deallocateBatch [0x1fff000, 0x1fff400, 0x1ffe000, 0x1fff800], .deallocate 0x1fffc00,
    .allocateBatchV2 [0, 0] 9]

theorem separate_invariant_sixChunks :
    let s := Path.last (State.new 1024 1 (fun _ => 0) (0x1000000, 0x2000000))
      (play (State.move Slab.carving)
        (State.new 1024 1 (fun _ => 0) (0x1000000, 0x2000000)) sixChunks)
    ∃ rings, WellShaped s rings :=
  (separate_invariant Slab.carving_lawful (by decide : 0 < 1024) (by decide : 1024 ≤ PAGE_SIZE * 1)
    (fun _ _ => Slab.radixFits_of_le (by decide : 1 ≤ 4097)) Slab.carved_region
    (play_path (fun h => State.move_step h) _ sixChunks).run).1

/-- Without a condition on the runs that the backend grants. -/
def NeverPanics (B : PageBackend σ) (Holds : σ → Mem → RadixTree → Set Block → Prop) : Prop :=
  ∀ (sizeClass numOsPages : Nat) (mem : Mem) (back : σ) (tr : List Event) (s : State σ),
    0 < sizeClass → sizeClass ≤ PAGE_SIZE * numOsPages → Holds back mem TreeNode.zeroed ∅ →
      Run (Step B) (State.new sizeClass numOsPages mem back) tr s →
        ∀ align, s.slab.allocate B s.heap align ≠ .error .panic

/-- An allocation panics if it cannot register the run of the page it has opened. -/
theorem SCAllocator.allocate_eq_panic {self sc₁ sc₂ sc₃ : SCAllocator} {h h₁ : Heap σ}
    {align idx x : Nat} {newPage : Option Nat} (htry : self.tryPartial align = some (self, 0))
    (hget : self.getEmpty B h = .ok (sc₁, h₁, idx, newPage))
    (hin : sc₁.allocateIn align idx = some (sc₂, x)) (hfile : sc₂.fileAway idx = some sc₃)
    (hregister : sc₃.register h₁.tree idx newPage = none) :
    self.allocate B h align = .error .panic := by
  simp only [allocate, htry, hget, hin, hfile, hregister, orPanic, bind, Except.bind, ne_eq,
    not_true_eq_false, if_false]

/-- The page of one chunk has been filed when the registration of its `65538` pages panics. -/
theorem wide_run_panics :
    let s := State.new (4096 * 65538) 65538 (fun _ => 0) (4096, 1073745920)
    s.slab.allocate Slab.carving s.heap 1 = .error .panic ∧
      ¬NeverPanics Slab.carving Slab.Carved := by
  intro s
  have hget : ∃ r ∈ (s.slab.getEmpty Slab.carving s.heap).toOption,
      r.2.2.2 = some 805302272 ∧ ∃ p ∈ r.1.allocateIn 1 r.2.2.1, ∃ sc ∈ p.1.fileAway r.2.2.1,
        sc.pgNum = 65538 := by decide +kernel
  obtain ⟨r, hr, hptr, p, hp, sc, hsc, hnum⟩ := hget
  have hregister : sc.register r.2.1.tree r.2.2.1 r.2.2.2 = none := by
    rw [hptr, SCAllocator.register, SCAllocator.handleRdTreeInsert, hnum]
    apply Slab.registerRun_eq_none
    all_goals norm_num [PAGE_SIZE, Slab.PieceFits]
  have hcall : s.slab.allocate Slab.carving s.heap 1 = .error .panic :=
    SCAllocator.allocate_eq_panic (if_neg (by decide)) (ok_of_toOption hr) hp hsc hregister
  refine ⟨hcall, fun never => ?_⟩
  exact never (4096 * 65538) 65538 _ _ [] s (by decide) (by decide)
    (Slab.carved_empty _ (by decide) (by decide)) .nil 1 hcall

end UniAlloc.Separate
