import UniAlloc.Cache.Conservation

/-!
# Drain at thread exit

When every block has been deallocated and every thread has ended, no chunk is missing:
all descriptors are on the empty rings or have no page, and all units are new.
-/

namespace UniAlloc.Cache

open Slab Radix Transition

variable {ι σ : Type} [DecidableEq ι] [Fintype ι] {b : Build σ}
  {Holds : σ → Mem → RadixTree → Set FreeList.Block → Prop} {request : Nat → Prop}
  {s : State ι σ} {g : Ghost Nat} {nodes : ι → Nat → List Nat}

namespace Inv

omit [DecidableEq ι] in
/-- The list of a new unit has no nodes. -/
theorem nodes_eq_nil (inv : Inv b Holds request s g nodes) {t : ι} {k : Nat}
    (hnew : s.caches t k = ThreadCacheUnit.new) : nodes t k = [] := by
  have := (inv.lists t k).length
  rw [hnew] at this
  exact List.eq_nil_of_length_eq_zero this.symm

omit [DecidableEq ι] in
/-- Without live blocks and without chunks in the units no chunk is out. -/
theorem out_eq_empty (inv : Inv b Holds request s g nodes) (quiet : s.live = 0)
    (hnew : ∀ t k, s.caches t k = ThreadCacheUnit.new) (k : Nat) : g.out k = ∅ := by
  have hshare : ∀ t, (s.caches t k).share (nodes t k) = 0 := fun t => by
    rw [hnew t k, inv.nodes_eq_nil (hnew t k)]
    rfl
  have htotal := inv.total k
  rw [quiet, Finset.sum_eq_zero fun t _ => hshare t] at htotal
  exact Finset.val_eq_zero.mp htotal.symm

omit [DecidableEq ι] in
/-- Then no descriptor is on a ring of pages with chunks out. -/
theorem not_inUse (inv : Inv b Holds request s g nodes) {k d : Nat} (hout : g.out k = ∅) :
    ¬g.InUse k d := fun hd => by
  obtain ⟨x, hx⟩ := InUse.exists_isOut inv.slab hd
  have := inv.slab.out.mpr ⟨d, hx⟩
  rw [hout] at this
  exact Finset.notMem_empty x this

end Inv

/-- A descriptor whose page has no chunks out. -/
structure Drained (s : State ι σ) (rings : Nat → Kind → List Nat) : Prop where
  ring : ∀ k kind, (s.slabs k).start kind = (rings k kind).headD 0 ∧
    LinkedRing (fun d => (s.heap.desc d).prev) (fun d => (s.heap.desc d).next) (rings k kind)
  /-- Every descriptor is on an empty or on an uninit ring … -/
  created : ∀ d ∈ s.heap.created, (s.heap.desc d).counter = 0 ∧
    ∃ k, d ∈ rings k .empty ∨ d ∈ rings k .uninit
  /-- … and the other rings have no descriptors. -/
  full : ∀ k, rings k .full = []
  partially : ∀ k, rings k .partially = []
  /-- Every unit is in its initial state. -/
  units : ∀ t k, s.caches t k = ThreadCacheUnit.new

/-- Once every live block has been deallocated and every thread has ended, no chunk is
left in a list, in a row or in a page. -/
theorem drained {B : PageBackend σ} {mem : Mem} {back : σ} {tr : List (ι × Move)}
    (law : Lawful B Holds) (start : Holds back mem TreeNode.zeroed ∅)
    (run : Run (Step (defaultBuild B) (SmallRequest tcSizeClass))
      (State.new tcSizeClass (Heap.new mem back)) tr s)
    (quiet : s.live = 0) (exited : ∀ t, s.pc t = .exited) : ∃ rings, Drained s rings := by
  obtain ⟨g, nodes, inv⟩ := inv_run (defaultBuild_sound law)
    (inv_new rfl rfl PageBumpAlloc.ok_new start) run
  have units : ∀ t k, s.caches t k = ThreadCacheUnit.new := fun t => by
    have := inv.pcs t
    rwa [exited t] at this
  have idle : ∀ k d, ¬g.InUse k d := fun k d => inv.not_inUse (inv.out_eq_empty quiet units k)
  refine ⟨fun k kind => g.rings (k, kind), fun k kind => ⟨inv.slab.threads.start_eq (k, kind),
    inv.slab.threads.ring (k, kind)⟩, fun d hd => ?_, fun k => ?_, fun k => ?_, units⟩
  · obtain ⟨⟨k, kind⟩, hd⟩ := inv.slab.created.mp hd
    have page := inv.slab.page hd
    cases kind with
    | full => exact absurd (.inl hd) (idle k d)
    | partially => exact absurd (.inr hd) (idle k d)
    | empty => exact ⟨page.2, k, .inl hd⟩
    | uninit => exact ⟨page.2, k, .inr hd⟩
  · exact List.eq_nil_iff_forall_not_mem.mpr fun d hd => idle k d (.inl hd)
  · exact List.eq_nil_iff_forall_not_mem.mpr fun d hd => idle k d (.inr hd)

/-- What a thread does to end. -/
def ending (t : Bool) : List (Bool × Move) :=
  (t, .exit) :: ((List.replicate 63 [(t, .flush), (t, .giveBack)]).flatten ++ [(t, .flush)])

/-- A thread allocates three blocks of two pages, ends, and leaves its blocks to the other
thread, which ends as well. -/
def inheritance : List (Bool × Move) :=
  [(false, .allocate ⟨1000, 8⟩), (false, .refill 0x7f0000000000), (false, .allocate ⟨24, 64⟩),
    (false, .refill 0), (false, .allocate ⟨1024, 1⟩)] ++ ending false ++
    [(true, .deallocate ⟨0x1ff8000, ⟨1000, 8⟩⟩), (true, .deallocate ⟨0x1ff8400, ⟨1024, 1⟩⟩),
      (true, .deallocate ⟨0x1ff7000, ⟨24, 64⟩⟩)] ++ ending true

theorem drained_inheritance :
    let s₀ : State Bool (Nat × Nat) :=
      State.new tcSizeClass (Heap.new (fun _ => 0) (0x1000000, 0x2000000))
    ∃ rings, Drained (Path.last s₀ (play
      (State.move (defaultBuild carving) · (SmallRequest tcSizeClass)) s₀ inheritance)) rings := by
  intro s₀
  exact drained carving_lawful carved_region
    (play_path (fun h => State.move_step h) s₀ inheritance).run (by decide +kernel)
    (by decide +kernel)

end UniAlloc.Cache
