import UniAlloc.FreeList.Preservation

/-!
# The carved pages are partitioned

In a state in which no call is running the carved pages are exactly the pages of
the live runs and of the runs on the lists, each covered once; the lists are
threaded through memory, and the radix tree tells the ends of the free runs.
-/

namespace UniAlloc.FreeList

open DoubleLinkedList Transition

variable {ι : Type} [DecidableEq ι] [Fintype ι] {s : State ι} {L : Nat → List Nat}

/-- The pages carved from `BUMP` are divided between the callers and the lists. -/
structure Partition (s : State ι) (L : Nat → List Nat) : Prop where
  /-- List `idx` starts at its head and is doubly linked through its nodes. -/
  threaded : ∀ idx < BACKEND_MAX_PAGE, s.heap.lists idx = (L idx).head? ∧
    Linked (readPrev s.heap.mem) (readNext s.heap.mem) none (L idx)
  /-- Live and free runs cover the carved pages. -/
  cover : (s.live + freeBlocks L).bind Block.pages = s.carved
  /-- No two of these runs overlap. -/
  disjoint : ((s.live + freeBlocks L).bind Block.pages).Nodup
  /-- A node is on one list only, and once. -/
  one_list : ∀ i < BACKEND_MAX_PAGE, (L i).Nodup ∧
    ∀ j < BACKEND_MAX_PAGE, i ≠ j → ∀ a ∈ L i, a ∉ L j
  /-- The tag of `k = idx + 1` pages stands at both ends of the runs of list `idx`. -/
  tags : ∀ idx < BACKEND_MAX_PAGE, ∀ p, s.heap.tree.entry p = tag idx ↔
    ∃ a ∈ L idx, p = a / PG_SIZE ∨ p = a / PG_SIZE + idx
  /-- No other page carries a tag. -/
  untagged : ∀ p, (∀ idx < BACKEND_MAX_PAGE, ∀ a ∈ L idx, p ≠ a / PG_SIZE ∧
    p ≠ a / PG_SIZE + idx) → 0 ≤ s.heap.tree.entry p

omit [DecidableEq ι] in
theorem Inv.partition (inv : Inv s L) (quiet : ∀ t, s.pc t = .idle) : Partition s L := by
  have hblocks : blocks s.live L s.pc = s.live + freeBlocks L := by
    simp [blocks, quiet, Pc.held]
  have htotal := inv.total
  rw [hblocks] at htotal
  constructor
  case threaded => exact inv.rep.threaded
  case cover => exact htotal
  case disjoint =>
    rw [htotal]
    exact inv.nodup
  case one_list =>
    refine fun i hi => ⟨inv.rep.apart.nodup_list hi, fun j hj hij a hai haj => ?_⟩
    exact (inv.rep.apart.pageApart hi hj hai haj (Or.inr hij)).2.2 rfl
  case tags =>
    intro idx hidx p
    constructor
    · intro htag
      obtain ⟨j, hj, a, ha, hp⟩ := inv.rep.tagged.others p (by
        rw [htag]
        exact tag_neg hidx)
      obtain ⟨hfirst, hlast⟩ := inv.rep.tagged.ends j hj a ha
      have hentry : s.heap.tree.entry p = tag j := by rcases hp with rfl | rfl <;> assumption
      obtain rfl := tag_inj hidx hj (htag.symm.trans hentry)
      exact ⟨a, ha, hp⟩
    · rintro ⟨a, ha, rfl | rfl⟩
      · exact (inv.rep.tagged.ends idx hidx a ha).1
      · exact (inv.rep.tagged.ends idx hidx a ha).2
  case untagged =>
    intro p hp
    by_contra hneg
    obtain ⟨idx, hidx, a, ha, hpa⟩ := inv.rep.tagged.others p (not_le.mp hneg)
    rcases hpa with h | h
    · exact (hp idx hidx a ha).1 h
    · exact (hp idx hidx a ha).2 h

/-- Whatever calls any number of threads have made, between the calls the carved
pages are partitioned into live and free runs. -/
theorem pages_partitioned {mem : Mem} {tr : List (ι × Event)}
    (run : Run Step (State.new mem) tr s) (quiet : ∀ t, s.pc t = .idle) :
    ∃ L, Partition s L := by
  obtain ⟨L, inv⟩ := inv_run run
  exact ⟨L, inv.partition quiet⟩

/-- One thread allocates three pages and frees them; then another thread takes one of
these pages and the first one two. -/
def splitRun : List (Bool × Move) :=
  (false, .alloc 12288) :: List.replicate 127 (false, .act 0x10000000) ++
    (false, .free 0x10fffd000 12288) :: List.replicate 3 (false, .act 0) ++
    (true, .alloc 1) :: List.replicate 4 (true, .act 0) ++
    (false, .alloc 8192) :: List.replicate 1 (false, .act 0)

theorem pages_partitioned_splitRun :
    ∃ L, Partition (Path.last (State.new fun _ => 0) (play (State.new fun _ => 0) splitRun)) L :=
  pages_partitioned (play_path _ splitRun).run (by decide +kernel)

/-- No call ever panics: a thread inside a call can take its next action. -/
theorem act_ne_none {mem : Mem} {tr : List (ι × Event)} (run : Run Step (State.new mem) tr s)
    {t : ι} (running : s.pc t ≠ .idle) {mapped : Nat}
    (fresh : Maps s.heap (s.pc t) → FreshRegion s.carved mapped) :
    act s.heap mapped (s.pc t) ≠ none := by
  obtain ⟨L, inv⟩ := inv_run run
  obtain ⟨h, c, e, L', hact, -⟩ := inv.advances running fresh
  simp [hact]

end UniAlloc.FreeList
