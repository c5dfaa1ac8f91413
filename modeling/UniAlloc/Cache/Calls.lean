import UniAlloc.Cache.Conservation
import UniAlloc.Cache.Exhaustion

/-!
# Whole calls of a thread

A call of `allocate` that is not interrupted, and what the calls of a thread leave alone:
the memory of the live blocks.
-/

namespace UniAlloc.Cache

open FreeList Radix Slab

variable {ι σ : Type} [DecidableEq ι] [Fintype ι] {b : Build σ}
  {Holds : σ → Mem → RadixTree → Set Block → Prop} {request : Nat → Prop}
  {s s' : State ι σ} {g : Ghost Nat} {nodes : ι → Nat → List Nat} {t : ι} {block c : Live}
  {a : Nat}

/-- A byte of a block. -/
def Live.Byte (block : Live) (a : Nat) : Prop :=
  block.ptr ≤ a ∧ a < block.ptr + block.layout.size

namespace Inv

omit [DecidableEq ι] in
/-- A byte of a small block lies in a run, and no unit keeps its links there. -/
theorem live_byte (sound : b.Sound Holds request) (inv : Inv b Holds request s g nodes)
    (hblock : block ∈ s.live) (ha : block.Byte a) :
    HeldPage (runs (configs b.classes) s.heap.desc g) (a / PG_SIZE) ∧
      ∀ t k, a ∉ (s.caches t k).share (nodes t k) := by
  obtain ⟨idx, hidx, -, hsize, hout⟩ := inv.live_chunk sound hblock
  have hlt : a < block.ptr + (configs b.classes idx).align :=
    ha.2.trans_le (Nat.add_le_add_left hsize _)
  refine ⟨inv.slab.out_held sound.law hout ha.1 hlt, fun t k hshare => ?_⟩
  have hout' := inv.out_of_share hshare
  have := (inv.slab.ok_of_out hout').align_pos
  obtain ⟨rfl, hptr⟩ := inv.slab.out_unique sound.law hout hout' ha.1 hlt le_rfl (by omega)
  rw [← hptr] at hshare
  exact inv.live_apart (mem_liveChunks hblock hidx) hshare

omit [DecidableEq ι] in
/-- A small block can be written to. -/
theorem write (sound : b.Sound Holds request) (inv : Inv b Holds request s g nodes)
    (hblock : block ∈ s.live) {mem : Mem} (same : ∀ a, ¬block.Byte a → mem a = s.heap.mem a) :
    Inv b Holds request { s with heap := { s.heap with mem } } g nodes := by
  obtain ⟨idx, -, -, hsize, hout⟩ := inv.live_chunk sound hblock
  refine { inv with
    slab := inv.slab.write sound.law fun a ha => same a fun hbyte => ?_
    lists := fun t k => (inv.lists t k).congr fun x hx => same x fun hbyte => ?_ }
  · have hle : block.ptr + block.layout.size ≤ block.ptr + (configs b.classes idx).align :=
      Nat.add_le_add_left hsize _
    exact ha idx block.ptr hout ⟨hbyte.1, hbyte.2.trans_le hle⟩
  · exact (inv.live_byte sound hblock hbyte).2 t k (ThreadCacheUnit.mem_share_of_node _ hx)

omit [DecidableEq ι] in
/-- A small block keeps its place while its size changes within its class. -/
theorem relabel (inv : Inv b Holds request s g nodes) (hblock : block ∈ s.live) {layout : Layout}
    (hreq : request layout.size)
    (hclass : b.classes.getSizeClass layout.size = b.classes.getSizeClass block.layout.size) :
    Inv b Holds request { s with live := ⟨block.ptr, layout⟩ ::ₘ s.live.erase block } g nodes := by
  obtain ⟨live, hlive⟩ := Multiset.exists_cons_of_mem hblock
  have hsame : ∀ k, liveChunks b.classes (⟨block.ptr, layout⟩ ::ₘ s.live.erase block) k =
      liveChunks b.classes s.live k := by
    intro k
    rw [hlive, Multiset.erase_cons_head, liveChunks, liveChunks, Multiset.filter_cons,
      Multiset.filter_cons]
    have hiff : InClass b.classes k ⟨block.ptr, layout⟩ ↔ InClass b.classes k block := by
      rw [InClass, InClass, hclass]
    simp only [hiff, Multiset.map_add]
    split <;> rfl
  refine { inv with
    total := fun k => ?_
    live := Multiset.forall_mem_cons.mpr
      ⟨hreq, fun c hc => inv.live c (Multiset.mem_of_mem_erase hc)⟩ }
  rw [hsame]
  exact inv.total k

omit [Fintype ι] in
/-- A deallocation pushes the block on the list of the unit of its class. -/
theorem deallocate_eq {idx : Nat} (hidx : b.classes.getSizeClass block.layout.size = .base idx)
    (hclass : IsClass b.classes idx) : s.deallocate b t block =
      some { s.setUnit t idx ((s.caches t idx).free s.heap.mem block.ptr).1
        (Function.update s.heap.mem block.ptr (s.caches t idx).list.link) with
          live := s.live.erase block } := by
  simp only [State.deallocate, hidx, if_neg hclass.1.ne', if_pos hclass.2]
  rfl

/-- A call of `ThreadCacheUnit::allocate` that is not interrupted. -/
theorem unitAllocate (sound : b.Sound Holds request) (inv : Inv b Holds request s g nodes)
    (idle : s.pc t = .idle) {layout : Layout} (hreq : request layout.size) {idx mapped : Nat}
    (hidx : b.classes.getSizeClass layout.size = .base idx)
    (fresh : ∀ mem, b.maps { s.heap with mem } mapped) :
    (∃ ans s' g' nodes', s.unitAllocate b t layout id idx mapped = some (ans, s') ∧ ans ≠ 0 ∧
      Inv b Holds request (s'.addLive ⟨ans, layout⟩) g' nodes' ∧ s'.live = s.live ∧
      s'.pc = s.pc ∧ ∀ a, HeldPage (runs (configs b.classes) s.heap.desc g) (a / PG_SIZE) →
        a ∉ (s.caches t idx).share (nodes t idx) → s'.heap.mem a = s.heap.mem a) ∨
    s.unitAllocate b t layout id idx mapped = none ∧ ∃ mem,
      Holds s.heap.back mem s.heap.tree (runs (configs b.classes) s.heap.desc g) ∧
        b.exhausted { s.heap with mem } (configs b.classes idx).pgNum := by
  obtain ⟨hclass, -⟩ := sound.isClass hreq hidx
  obtain ⟨unit, mem, ans, l, hlocal, -, hmem, -⟩ :=
    ThreadCacheUnit.allocateLocal_spec (inv.lists t idx) (inv.nodup_share t idx)
      (inv.share_pos sound t idx) layout.align
  obtain ⟨s₁, nodes₁, hcall, inv₁⟩ := inv.allocate sound idle hreq
  simp only [State.allocate, hidx, if_neg hclass.1.ne', if_pos hclass.2, hlocal,
    Option.bind_eq_bind, Option.bind_some] at hcall
  simp only [State.unitAllocate, hlocal, Option.bind_eq_bind, Option.bind_some, id]
  split at hcall
  · next hne =>
      cases hcall
      rw [if_pos hne]
      exact .inl ⟨ans, _, g, nodes₁, rfl, hne, inv₁, rfl, rfl, fun a _ ha => hmem a ha⟩
  · next hnull =>
      cases hcall
      rw [if_neg hnull]
      obtain ⟨s₂, g₂, nodes₂, hrefill, inv₂⟩ | ⟨hrefill, hout⟩ :=
        inv₁.refill sound (Function.update_self _ _ _) (fresh mem)
      · obtain ⟨⟨slab, heap, batch⟩, hbatch, hrefill⟩ := Option.bind_eq_some_iff.mp hrefill
        obtain ⟨⟨unit', ans'⟩, hinstall, hrefill⟩ := Option.bind_eq_some_iff.mp hrefill
        have hpc : Function.update (Function.update s.pc t (.refill idx layout)) t .idle =
            s.pc := by
          rw [Function.update_idem, ← idle, Function.update_eq_self]
        have frame : ∀ a, HeldPage (runs (configs b.classes) s.heap.desc g) (a / PG_SIZE) →
            heap.mem a = mem a := by
          obtain ⟨_, _, _, _, _, _, _, hbatch', -, granted, -⟩ | ⟨hbatch', -⟩ :=
            sound.batch layout.align inv₁.slab hclass (fresh mem)
          · cases hbatch.symm.trans hbatch'
            exact granted.frame
          · cases hbatch.symm.trans hbatch'
        cases hrefill
        obtain ⟨k, -, -, -, hout⟩ := inv₂.live_chunk sound (Multiset.mem_cons_self _ _)
        refine .inl ⟨ans', ((s.setUnit t idx unit mem).setSlab idx slab heap).setUnit t idx unit'
          heap.mem, g₂, nodes₂, ?_, (inv₂.slab.out_pos sound.law hout).ne', ?_, rfl, rfl,
          fun a ha hshare => (frame a ha).trans (hmem a hshare)⟩
        · exact Option.bind_eq_some_iff.mpr
            ⟨_, hbatch, Option.bind_eq_some_iff.mpr ⟨_, hinstall, rfl⟩⟩
        · simp only [State.setPc, State.setSlab, State.setUnit, State.addLive, hpc] at inv₂ ⊢
          exact inv₂
      · refine .inr ⟨?_, mem, inv₁.slab.holds, hout⟩
        simpa only [State.refill, State.setPc, Option.bind_eq_bind, Option.bind_eq_none_iff,
          reduceCtorEq, imp_false] using hrefill

end Inv

end UniAlloc.Cache
