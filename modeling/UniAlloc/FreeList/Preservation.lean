import UniAlloc.FreeList.Invariant

/-!
# Every action keeps the page ledger

For each program point the action is evaluated with the rule of the list
operation it performs, which shows at once that it does not panic and that the
invariant holds afterwards.
-/

namespace UniAlloc.FreeList

open Radix Transition

variable {ι : Type} [DecidableEq ι] [Fintype ι] {s : State ι} {L : Nat → List Nat} {t : ι}

namespace Inv

omit [DecidableEq ι] in
/-- Two runs that share a page are one run. -/
theorem eq_of_page (inv : Inv s L) {b c : Block} (hb : b ∈ blocks s.live L s.pc)
    (hc : c ∈ blocks s.live L s.pc) {p : Nat} (hpb : p ∈ b.pages) (hpc : p ∈ c.pages) : b = c :=
  Ledger.eq_of_shared (by rw [inv.total]; exact inv.nodup) hb hc hpb hpc

/-- The pages in a thread's hands are not free. -/
theorem held_not_free (inv : Inv s L) {b : Block} (hb : b ∈ (s.pc t).held) {p : Nat}
    (hp : p ∈ b.pages) : p ∉ freePages L := by
  have hnodup := inv.nodup
  rw [← inv.total, blocks_eq _ _ _ t, Multiset.add_bind, Multiset.add_bind,
    Multiset.add_bind] at hnodup
  have hdisj := (Multiset.nodup_add.mp (Multiset.nodup_add.mp hnodup).1).2.2
  intro hfree
  exact Multiset.disjoint_left.mp hdisj (Multiset.mem_add.mpr (Or.inr hfree))
    (Multiset.mem_bind.mpr ⟨b, hb, hp⟩)

omit [DecidableEq ι] in
theorem live_not_free (inv : Inv s L) {p : Nat} (hp : p ∈ s.livePages) : p ∉ freePages L := by
  have hnodup := inv.nodup
  rw [← inv.total, blocks, Multiset.add_bind, Multiset.add_bind] at hnodup
  have hdisj := (Multiset.nodup_add.mp (Multiset.nodup_add.mp hnodup).1).2.2
  exact Multiset.disjoint_left.mp hdisj hp

omit [DecidableEq ι] in
theorem mem_of_free {b : Block} (hb : b ∈ freeBlocks L) : b ∈ blocks s.live L s.pc :=
  Multiset.mem_add.mpr (Or.inl (Multiset.mem_add.mpr (Or.inr hb)))

omit [DecidableEq ι] in
theorem mem_carved (inv : Inv s L) {b : Block} (hb : b ∈ blocks s.live L s.pc) {p : Nat}
    (hp : p ∈ b.pages) : p ∈ s.carved := by
  rw [← inv.total]
  exact Multiset.mem_bind.mpr ⟨b, hb, hp⟩

omit [DecidableEq ι] in
theorem free_carved (inv : Inv s L) {p : Nat} (hp : p ∈ freePages L) : p ∈ s.carved := by
  obtain ⟨b, hb, hpb⟩ := Multiset.mem_bind.mp hp
  exact inv.mem_carved (mem_of_free hb) hpb

omit [DecidableEq ι] in
/-- The start of a free run is a boundary. -/
theorem boundary_of_free (inv : Inv s L) {idx a : Nat} (hidx : idx < BACKEND_MAX_PAGE)
    (ha : a ∈ L idx) : Boundary s.carved (blocks s.live L s.pc) a := by
  have hb := mem_freeBlocks.mpr ⟨idx, hidx, a, ha, rfl⟩
  have hfirst := (inv.wf_of_free hb).first_mem
  refine ⟨inv.mem_carved (mem_of_free hb) hfirst, fun c hc hac => ?_⟩
  rw [inv.eq_of_page hc (mem_of_free hb) hac hfirst]

/-- A tag in front of a run in a thread's hands belongs to the free run that ends there. -/
theorem prev_boundary (inv : Inv s L) {ptr num : Nat} (hheld : ⟨ptr, num⟩ ∈ (s.pc t).held)
    (hflag : 0 < flag (s.heap.tree.entry ((ptr - PG_SIZE) / PG_SIZE))) :
    ∃ idx < BACKEND_MAX_PAGE, flag (s.heap.tree.entry ((ptr - PG_SIZE) / PG_SIZE)) = idx + 1 ∧
      (idx + 1) * PG_SIZE < ptr ∧
      Boundary s.carved (blocks s.live L s.pc) (ptr - (idx + 1) * PG_SIZE) := by
  have wf := inv.wf _ (mem_of_held hheld)
  obtain ⟨idx, hidx, a, ha, hpa⟩ := inv.rep.tagged.others _ (neg_of_flag_pos hflag)
  have hentry : s.heap.tree.entry ((ptr - PG_SIZE) / PG_SIZE) = tag idx := by
    obtain ⟨hfirst, hlast⟩ := inv.rep.tagged.ends idx hidx a ha
    rcases hpa with h | h <;> rw [h] <;> assumption
  have wfa := inv.rep.apart.node_wf hidx ha
  have hout : ¬(ptr / PG_SIZE ∈ (⟨a, idx + 1⟩ : Block).pages) := fun h =>
    inv.held_not_free hheld wf.first_mem (mem_freePages.mpr ⟨idx, hidx, a, ha, h⟩)
  have haligned := wf.aligned
  have hpos := wf.pos
  have haligned' := wfa.aligned
  have hpos' := wfa.pos
  simp only [PG_SIZE, Block.mem_pages] at haligned haligned' hpos hpos' hpa hout
  have hstart : ptr = a + (idx + 1) * PG_SIZE := by
    simp only [PG_SIZE]
    omega
  refine ⟨idx, hidx, by rw [hentry, flag_tag hidx], by omega, ?_⟩
  rw [hstart, Nat.add_sub_cancel]
  exact inv.boundary_of_free hidx ha

/-- A tag behind a run in a thread's hands belongs to the free run that starts there. -/
theorem next_boundary (inv : Inv s L) {ptr num : Nat} (hheld : ⟨ptr, num⟩ ∈ (s.pc t).held)
    (hflag : 0 < flag (s.heap.tree.entry ((ptr + num * PG_SIZE) / PG_SIZE))) :
    ∃ idx < BACKEND_MAX_PAGE, flag (s.heap.tree.entry ((ptr + num * PG_SIZE) / PG_SIZE)) = idx + 1 ∧
      Boundary s.carved (blocks s.live L s.pc) (ptr + num * PG_SIZE) := by
  have wf := inv.wf _ (mem_of_held hheld)
  obtain ⟨idx, hidx, a, ha, hpa⟩ := inv.rep.tagged.others _ (neg_of_flag_pos hflag)
  have hentry : s.heap.tree.entry ((ptr + num * PG_SIZE) / PG_SIZE) = tag idx := by
    obtain ⟨hfirst, hlast⟩ := inv.rep.tagged.ends idx hidx a ha
    rcases hpa with h | h <;> rw [h] <;> assumption
  have wfa := inv.rep.apart.node_wf hidx ha
  have hout : ∀ p ∈ (⟨ptr, num⟩ : Block).pages, ¬(p ∈ (⟨a, idx + 1⟩ : Block).pages) := fun p hp h =>
    inv.held_not_free hheld hp (mem_freePages.mpr ⟨idx, hidx, a, ha, h⟩)
  have hlast := hout (ptr / PG_SIZE + num - 1)
  have haligned := wf.aligned
  have hnum := wf.num_pos
  have haligned' := wfa.aligned
  simp only [PG_SIZE, Block.mem_pages] at haligned haligned' hnum hpa hlast
  have hstart : ptr + num * PG_SIZE = a := by
    simp only [PG_SIZE]
    omega
  refine ⟨idx, hidx, by rw [hentry, flag_tag hidx], ?_⟩
  rw [hstart]
  exact inv.boundary_of_free hidx ha

end Inv

omit [DecidableEq ι] [Fintype ι] in
theorem allocSize_eq {size : Nat} (pos : 0 < size) :
    BumpAlloc.allocSize size = (originSize size + 1) * PG_SIZE := by
  simp only [BumpAlloc.allocSize, originSize, PG_SIZE]
  omega

/-- `BUMP` hands out a run that has never been carved. -/
theorem BumpOk.alloc {bump : BumpAlloc} {carved : Multiset Nat} (ok : BumpOk bump carved)
    {size mapped : Nat} (pos : 0 < size) (le : size ≤ BACKEND_MAX_PAGE * PG_SIZE)
    (fresh : bump.Exhausted size → FreshRegion carved mapped) :
    ∃ bump' ptr, bump.alloc size mapped = (bump', .ok ptr) ∧ (blockOf ptr size).Wf ∧
      (∀ p ∈ (blockOf ptr size).pages, p ∉ carved) ∧
      BumpOk bump' ((blockOf ptr size).pages + carved) := by
  have hsize := allocSize_eq pos
  have hnum : originSize size + 1 ≤ BACKEND_MAX_PAGE := by
    simp only [originSize, PG_SIZE, BACKEND_MAX_PAGE] at le ⊢
    omega
  -- the region the run is taken from, whether it had to be mapped or not
  obtain ⟨region, hregion, hok, hfits⟩ : ∃ region : BumpAlloc,
      region = (if bump.Exhausted size then BumpAlloc.init mapped else bump) ∧
      BumpOk region carved ∧ ¬region.Exhausted size := by
    refine ⟨_, rfl, ?_⟩
    by_cases hex : bump.Exhausted size
    · obtain ⟨aligned, hpos, bound, disjoint⟩ := fresh hex
      have hstart : mapped ≠ 2 ^ 64 - 1 := by
        simp only [PG_SIZE] at aligned
        omega
      simp only [PG_SIZE, BumpAlloc.DEFAULT_SIZE] at aligned bound disjoint
      rw [if_pos hex, BumpAlloc.init, if_neg hstart]
      refine ⟨⟨?_, ?_, ?_, ?_, ?_⟩, ?_⟩
      · simp only [PG_SIZE, BumpAlloc.DEFAULT_SIZE]
        omega
      · simp
      · exact fun _ => hpos
      · simp only [PG_SIZE, BumpAlloc.DEFAULT_SIZE]
        omega
      · intro p hp
        have := disjoint p hp
        simp only [PG_SIZE, BumpAlloc.DEFAULT_SIZE]
        omega
      · simp only [BumpAlloc.Exhausted, hsize, PG_SIZE, BACKEND_MAX_PAGE,
          BumpAlloc.DEFAULT_SIZE] at hnum ⊢
        omega
    · rw [if_neg hex]
      exact ⟨ok, hex⟩
  obtain ⟨⟨hcheck, hcur⟩, hle, hpos, hbound, hfresh⟩ := hok
  rw [BumpAlloc.Exhausted, hsize, gt_iff_lt, not_lt] at hfits
  simp only [PG_SIZE] at hcheck hcur hbound hfresh hfits hnum
  refine ⟨{ region with current := region.current - (originSize size + 1) * PG_SIZE },
    region.current - (originSize size + 1) * PG_SIZE, ?_, ?_, ?_, ?_⟩
  · rw [BumpAlloc.alloc, ← hregion, hsize]
    exact if_pos (by simp only [PG_SIZE]; omega)
  · refine ⟨?_, ?_, Nat.succ_pos _, hnum, ?_⟩ <;> simp only [blockOf, PG_SIZE] <;> omega
  · intro p hp hcarved
    have := hfresh p hcarved
    simp only [blockOf, Block.mem_pages, PG_SIZE] at hp
    omega
  · refine ⟨⟨hcheck, ?_⟩, ?_, ?_, ?_, ?_⟩
    · simp only [PG_SIZE]
      omega
    · simp only [PG_SIZE]
      omega
    · simp only [PG_SIZE]
      omega
    · simp only [PG_SIZE]
      omega
    · intro p hp
      simp only [PG_SIZE]
      rcases Multiset.mem_add.mp hp with hp | hp
      · simp only [blockOf, Block.mem_pages, PG_SIZE] at hp
        omega
      · have := hfresh p hp
        omega

/-- The run an action puts on a list. -/
def Pc.inserts : Pc → Option Block
  | .allocSplit size parentIdx parent =>
      some ⟨parent + PG_SIZE * (originSize size + 1), parentIdx - originSize size⟩
  | .freeInsert finalPtr finalIdx => some ⟨finalPtr, finalIdx + 1⟩
  | _ => none

/-- The thread is giving its run back. -/
def Pc.frees : Pc → Bool
  | .freePrev .. => true
  | .freeMergePrev .. => true
  | .freeNext .. => true
  | .freeMergeNext .. => true
  | .freeInsert .. => true
  | _ => false

/-- How an action of a thread changes the free runs and the thread's hands: it
removes free runs or adds the announced one, and it takes nothing but free runs. -/
structure Change (pc c : Pc) (L L' : Nat → List Nat) : Prop where
  free : freeBlocks L' ⊆ freeBlocks L ∨
    ∃ b, pc.inserts = some b ∧ freeBlocks L' = b ::ₘ freeBlocks L
  held : c.held ⊆ pc.held ∧ (c.frees = true → pc.frees = true) ∨
    c.held ⊆ freeBlocks L ∧ c.frees = false

/-- The next action of thread `t` is possible and keeps the invariant. -/
def Advances (s : State ι) (L : Nat → List Nat) (t : ι) (mapped : Nat) : Prop :=
  ∃ h c e L', act s.heap mapped (s.pc t) = some (h, c, e) ∧
    Inv (State.record { s with heap := h, pc := Function.update s.pc t c } e) L' ∧
    Change (s.pc t) c L L'

namespace Inv

variable {mapped : Nat}

/-- An action that only moves the thread. -/
theorem advances_silent (inv : Inv s L) {c : Pc}
    (hact : act s.heap mapped (s.pc t) = some (s.heap, c, .tau)) (held : c.held = (s.pc t).held)
    (frees : c.frees = (s.pc t).frees) (ok : ThreadOk s.carved (blocks s.live L s.pc) c) :
    Advances s L t mapped :=
  ⟨s.heap, c, .tau, L, hact, inv.silent held ok, Or.inl fun _ h => h,
    Or.inl ⟨by rw [held]; exact fun _ h => h, frees ▸ id⟩⟩

theorem advances_allocScan (inv : Inv s L) {size idx : Nat} (hpc : s.pc t = .allocScan size idx) :
    Advances s L t mapped := by
  have hok := inv.thread t
  rw [hpc] at hok
  obtain ⟨hpos, hle, horigin, hidx⟩ := hok
  cases hL : L idx with
  | nil =>
      have hrem := inv.rep.removeOne_nil hidx hL
      by_cases hlast : idx + 1 < BACKEND_MAX_PAGE
      · refine inv.advances_silent (c := .allocScan size (idx + 1)) ?_ (by rw [hpc]; rfl)
          (by rw [hpc]; rfl)
          ⟨hpos, hle, by omega, hlast⟩
        simp only [hpc, act, hrem, Option.bind_eq_bind, Option.bind_some, if_pos hlast]
      · refine inv.advances_silent (c := .allocBump size) ?_ (by rw [hpc]; rfl)
          (by rw [hpc]; rfl) ⟨hpos, hle⟩
        simp only [hpc, act, hrem, Option.bind_eq_bind, Option.bind_some, if_neg hlast]
  | cons ptr rest =>
      obtain ⟨h, hrem, hrep, hsame, -⟩ := inv.rep.removeOne_cons hidx hL
      have hpop := freeBlocks_pop hidx hL
      have hsub : freeBlocks (Function.update L idx rest) ⊆ freeBlocks L := by
        rw [hpop]
        exact Multiset.subset_cons _ _
      by_cases hexact : idx = originSize size
      · refine ⟨h, .idle, .taken ptr size, Function.update L idx rest, ?_, ?_, Or.inl hsub,
          Or.inl ⟨Multiset.zero_subset _, by simp [Pc.frees]⟩⟩
        · simp only [hpc, act, hrem, Option.bind_eq_bind, Option.bind_some, if_pos hexact]
        · refine inv.moved hrep hsame.bump ?_ trivial
          rw [hpc, hpop, blockOf, ← hexact]
          simp [Pc.held]
      · refine ⟨h, .allocSplit size idx ptr, .tau, Function.update L idx rest, ?_, ?_, Or.inl hsub,
          Or.inr ⟨by simp [Pc.held, hpop], rfl⟩⟩
        · simp only [hpc, act, hrem, Option.bind_eq_bind, Option.bind_some, if_neg hexact]
        · refine inv.moved hrep hsame.bump ?_ ⟨by omega, hidx⟩
          rw [hpc, hpop]
          simp [Pc.held, add_comm]

theorem advances_allocSplit (inv : Inv s L) {size parentIdx parent : Nat}
    (hpc : s.pc t = .allocSplit size parentIdx parent) : Advances s L t mapped := by
  have hok := inv.thread t
  rw [hpc] at hok
  obtain ⟨hlt, hidx⟩ := hok
  have hheld : ⟨parent, parentIdx + 1⟩ ∈ (s.pc t).held := by simp [hpc, Pc.held]
  -- the parent run is cut into the run handed out and the remainder
  have hremain : parent + PG_SIZE * (originSize size + 1) =
      parent + (originSize size + 1) * PG_SIZE := by rw [Nat.mul_comm]
  have hcut : parentIdx + 1 = (originSize size + 1) + (parentIdx - originSize size - 1 + 1) := by
    omega
  have wf := inv.wf _ (mem_of_held hheld)
  have hpages := Block.pages_split parent (originSize size + 1) (parentIdx - originSize size - 1 + 1)
  rw [hcut] at wf
  rw [← hcut, ← hremain] at hpages
  obtain ⟨wffront, wfremain⟩ := wf.split (Nat.succ_pos _) (Nat.succ_pos _)
  rw [← hremain] at wfremain
  obtain ⟨h, hins, hrep, hsame, -⟩ := inv.rep.insertNew_spec (by omega) wfremain (fun p hp =>
    inv.held_not_free hheld (by rw [hpages]; exact Multiset.mem_add.mpr (Or.inr hp)))
  have hpush := freeBlocks_push (L := L)
    (show parentIdx - originSize size - 1 < BACKEND_MAX_PAGE by omega)
    (parent + PG_SIZE * (originSize size + 1))
  refine ⟨h, .idle, .taken parent size, _, ?_, ?_, Or.inr ⟨_, ?_, hpush⟩,
    Or.inl ⟨Multiset.zero_subset _, by simp [Pc.frees]⟩⟩
  · simp only [hpc, act, hins, Option.bind_eq_bind, Option.bind_some]
  · have hnext := inv.next t .idle (blockOf parent size ::ₘ s.live) 0 hrep ?_ (by simp) ?_ ?_
      (by rw [hsame.bump, zero_add]; exact inv.bump) trivial
    · rwa [zero_add] at hnext
    · rw [hpush, hpc]
      simp only [Pc.held, Multiset.add_bind, Multiset.cons_bind, Multiset.singleton_bind, hpages,
        blockOf, Multiset.zero_bind]
      abel
    · intro b hb
      rw [hpush] at hb
      simp only [Pc.held, Multiset.cons_add, Multiset.add_cons, add_zero, Multiset.mem_cons] at hb
      rcases hb with rfl | rfl | hb
      · exact wfremain
      · exact wffront
      · refine inv.wf b ?_
        rw [blocks_eq _ _ _ t]
        exact Multiset.mem_add.mpr (Or.inl (Multiset.mem_add.mpr (Or.inl hb)))
    · intro b hb
      rw [hpush] at hb
      simp only [Pc.held, Multiset.cons_add, Multiset.add_cons, add_zero, Multiset.mem_cons] at hb
      have hparent : ⟨parent, parentIdx + 1⟩ ∈ s.live + freeBlocks L + (s.pc t).held :=
        Multiset.mem_add.mpr (Or.inr hheld)
      rcases hb with rfl | rfl | hb
      · refine Or.inl ⟨_, hparent, fun p hp => ?_, Or.inr ?_⟩
        · rw [hpages]
          exact Multiset.mem_add.mpr (Or.inr hp)
        · simp only [Block.mem_pages, hremain, Block.last_page]
          omega
      · refine Or.inl ⟨_, hparent, fun p hp => ?_, Or.inl rfl⟩
        rw [hpages]
        exact Multiset.mem_add.mpr (Or.inl hp)
      · exact Or.inl ⟨b, Multiset.mem_add.mpr (Or.inl hb), fun _ h => h, Or.inl rfl⟩
  · rw [hpc, Pc.inserts, show parentIdx - originSize size - 1 + 1 = parentIdx - originSize size by
      omega]

theorem advances_allocBump (inv : Inv s L) {size : Nat} (hpc : s.pc t = .allocBump size)
    (fresh : Maps s.heap (s.pc t) → FreshRegion s.carved mapped) : Advances s L t mapped := by
  have hok := inv.thread t
  rw [hpc] at hok
  obtain ⟨bump, ptr, hbump, wf, hnew, hbumpOk⟩ := inv.bump.alloc hok.1 hok.2
    fun hex => fresh (by rw [hpc]; exact hex)
  refine ⟨{ s.heap with bump }, .idle, .carved ptr size, L, ?_, ?_, Or.inl fun _ h => h,
    Or.inl ⟨Multiset.zero_subset _, by simp [Pc.frees]⟩⟩
  · simp only [hpc, act, hbump]
  · refine inv.next t .idle (blockOf ptr size ::ₘ s.live) (blockOf ptr size).pages
      ⟨inv.rep.threaded, inv.rep.tagged, inv.rep.apart⟩ ?_
      ⟨Multiset.nodup_Ico, hnew⟩ ?_ ?_ hbumpOk trivial
    · rw [hpc]
      simp [Pc.held]
    · intro b hb
      simp only [Pc.held, Multiset.cons_add, add_zero, Multiset.mem_cons] at hb
      rcases hb with rfl | hb
      · exact wf
      · refine inv.wf b ?_
        rw [blocks_eq _ _ _ t]
        exact Multiset.mem_add.mpr (Or.inl (Multiset.mem_add.mpr (Or.inl hb)))
    · intro b hb
      simp only [Pc.held, Multiset.cons_add, add_zero, Multiset.mem_cons] at hb
      rcases hb with rfl | hb
      · exact Or.inr hnew
      · exact Or.inl ⟨b, Multiset.mem_add.mpr (Or.inl hb), fun _ h => h, Or.inl rfl⟩

theorem advances_freePrev (inv : Inv s L) {ptr size : Nat} (hpc : s.pc t = .freePrev ptr size) :
    Advances s L t mapped := by
  have hheld : blockOf ptr size ∈ (s.pc t).held := by simp [hpc, Pc.held]
  have wf := inv.wf _ (mem_of_held hheld)
  have haligned := wf.aligned
  have hpos := wf.pos
  have hbound := wf.bound
  simp only [blockOf, PG_SIZE] at haligned hpos hbound
  have hpage : ¬ptr < PG_SIZE := by
    simp only [PG_SIZE]
    omega
  have hget := RadixTree.getMut_pageKey s.heap.tree (show ptr - PG_SIZE < 2 ^ 48 by omega)
  by_cases hflag : 0 < flag (s.heap.tree.entry ((ptr - PG_SIZE) / PG_SIZE))
  · obtain ⟨idx, hidx, heq, hlt, hboundary⟩ := inv.prev_boundary hheld hflag
    refine inv.advances_silent (c := .freeMergePrev ptr size (idx + 1)) ?_ (by rw [hpc]; rfl)
      (by rw [hpc]; rfl)
      ⟨Nat.succ_pos _, hidx, hlt, hboundary⟩
    have hnat : (flag (s.heap.tree.entry ((ptr - PG_SIZE) / PG_SIZE))).toNat = idx + 1 := by
      rw [heq]
      rfl
    rw [← hnat]
    simp only [hpc, act, if_neg hpage, hget, Option.bind_eq_bind, Option.bind_some]
    exact if_pos hflag
  · refine inv.advances_silent (c := .freeNext ptr size ptr (originSize size)) ?_ (by rw [hpc]; rfl)
      (by rw [hpc]; rfl)
      ⟨rfl, rfl⟩
    simp only [hpc, act, if_neg hpage, hget, Option.bind_eq_bind, Option.bind_some]
    exact if_neg hflag

theorem advances_freeMergePrev (inv : Inv s L) {ptr size pflag : Nat}
    (hpc : s.pc t = .freeMergePrev ptr size pflag) : Advances s L t mapped := by
  have hok := inv.thread t
  rw [hpc] at hok
  obtain ⟨hpos, hle, hlt, hboundary⟩ := hok
  have wf := inv.wf _ (mem_of_held (b := blockOf ptr size) (t := t) (by simp [hpc, Pc.held]))
  have hbound := wf.bound
  simp only [blockOf, PG_SIZE] at hbound
  have hrem := inv.rep.removeSpecOne_eq (show pflag - 1 < BACKEND_MAX_PAGE by omega)
    (a := ptr - pflag * PG_SIZE) (by omega) (by omega)
    (fun b hb => hboundary.starts b (mem_of_free hb))
  refine inv.advances_silent (c := .freeNext ptr size ptr (originSize size)) ?_ (by rw [hpc]; rfl)
    (by rw [hpc]; rfl)
    ⟨rfl, rfl⟩
  simp only [hpc, act, if_neg hlt.le.not_gt, hrem, Option.bind_eq_bind, Option.bind_some]

theorem advances_freeNext (inv : Inv s L) {ptr size finalPtr finalIdx : Nat}
    (hpc : s.pc t = .freeNext ptr size finalPtr finalIdx) : Advances s L t mapped := by
  have hok := inv.thread t
  rw [hpc] at hok
  obtain ⟨rfl, rfl⟩ := hok
  have hheld : ⟨finalPtr, originSize size + 1⟩ ∈ (s.pc t).held := by simp [hpc, Pc.held]
  have wf := inv.wf _ (mem_of_held hheld)
  have hbound := wf.bound
  have hnum := wf.num_le
  simp only [PG_SIZE, BACKEND_MAX_PAGE] at hbound hnum
  have hget := RadixTree.getMut_pageKey s.heap.tree
    (show finalPtr + (originSize size + 1) * PG_SIZE < 2 ^ 48 by simp only [PG_SIZE]; omega)
  by_cases hflag :
      0 < flag (s.heap.tree.entry ((finalPtr + (originSize size + 1) * PG_SIZE) / PG_SIZE))
  · obtain ⟨idx, hidx, heq, hboundary⟩ := inv.next_boundary hheld hflag
    refine inv.advances_silent (c := .freeMergeNext finalPtr size finalPtr (originSize size) (idx + 1))
      ?_ (by rw [hpc]; rfl) (by rw [hpc]; rfl) ⟨rfl, rfl, Nat.succ_pos _, hidx, hboundary⟩
    have hnat : (flag (s.heap.tree.entry
        ((finalPtr + (originSize size + 1) * PG_SIZE) / PG_SIZE))).toNat = idx + 1 := by
      rw [heq]
      rfl
    rw [← hnat]
    simp only [hpc, act, hget, Option.bind_eq_bind, Option.bind_some]
    exact if_pos hflag
  · refine inv.advances_silent (c := .freeInsert finalPtr (originSize size)) ?_ (by rw [hpc]; rfl)
      (by rw [hpc]; rfl)
      trivial
    simp only [hpc, act, hget, Option.bind_eq_bind, Option.bind_some]
    exact if_neg hflag

theorem advances_freeMergeNext (inv : Inv s L) {ptr size finalPtr finalIdx nflag : Nat}
    (hpc : s.pc t = .freeMergeNext ptr size finalPtr finalIdx nflag) : Advances s L t mapped := by
  have hok := inv.thread t
  rw [hpc] at hok
  obtain ⟨rfl, rfl, hpos, hle, hboundary⟩ := hok
  have wf := inv.wf _ (mem_of_held (b := ⟨finalPtr, originSize size + 1⟩) (t := t)
    (by simp [hpc, Pc.held]))
  have hbound := wf.bound
  have hnum := wf.num_le
  have hptr := wf.pos
  simp only [PG_SIZE, BACKEND_MAX_PAGE] at hbound hnum hptr
  have hrem := inv.rep.removeSpecOne_eq (show nflag - 1 < BACKEND_MAX_PAGE by omega)
    (a := finalPtr + (originSize size + 1) * PG_SIZE) (by simp only [PG_SIZE]; omega) (by omega)
    (fun b hb => hboundary.starts b (mem_of_free hb))
  refine inv.advances_silent (c := .freeInsert finalPtr (originSize size)) ?_ (by rw [hpc]; rfl)
    (by rw [hpc]; rfl)
    trivial
  simp only [hpc, act, hrem, Option.bind_eq_bind, Option.bind_some]

theorem advances_freeInsert (inv : Inv s L) {finalPtr finalIdx : Nat}
    (hpc : s.pc t = .freeInsert finalPtr finalIdx) : Advances s L t mapped := by
  have hheld : ⟨finalPtr, finalIdx + 1⟩ ∈ (s.pc t).held := by simp [hpc, Pc.held]
  have wf := inv.wf _ (mem_of_held hheld)
  obtain ⟨h, hins, hrep, hsame, -⟩ := inv.rep.insertNew_spec wf.num_le wf
    fun p hp => inv.held_not_free hheld hp
  have hpush := freeBlocks_push (L := L) (show finalIdx < BACKEND_MAX_PAGE from wf.num_le) finalPtr
  refine ⟨h, .idle, .freed, _, ?_, ?_, Or.inr ⟨_, by rw [hpc]; rfl, hpush⟩,
    Or.inl ⟨Multiset.zero_subset _, by simp [Pc.frees]⟩⟩
  · simp only [hpc, act, if_pos (show finalIdx < BACKEND_MAX_PAGE from wf.num_le), hins,
      Option.bind_eq_bind, Option.bind_some]
  · refine inv.moved hrep hsame.bump ?_ trivial
    rw [hpc, hpush]
    simp only [Pc.held, add_zero, Multiset.add_cons]
    rw [add_comm (s.live + freeBlocks L), Multiset.singleton_add]

/-- No action panics, and every action keeps the invariant. -/
theorem advances (inv : Inv s L) (running : s.pc t ≠ .idle)
    (fresh : Maps s.heap (s.pc t) → FreshRegion s.carved mapped) : Advances s L t mapped := by
  cases hpc : s.pc t with
  | idle => exact absurd hpc running
  | allocScan size idx => exact inv.advances_allocScan hpc
  | allocSplit size parentIdx parent => exact inv.advances_allocSplit hpc
  | allocBump size => exact inv.advances_allocBump hpc fresh
  | freePrev ptr size => exact inv.advances_freePrev hpc
  | freeMergePrev ptr size pflag => exact inv.advances_freeMergePrev hpc
  | freeNext ptr size finalPtr finalIdx => exact inv.advances_freeNext hpc
  | freeMergeNext ptr size finalPtr finalIdx nflag => exact inv.advances_freeMergeNext hpc
  | freeInsert finalPtr finalIdx => exact inv.advances_freeInsert hpc

theorem originSize_lt {size : Nat} (le : size ≤ BACKEND_MAX_PAGE * PG_SIZE) :
    originSize size < BACKEND_MAX_PAGE := by
  simp only [originSize, PG_SIZE, BACKEND_MAX_PAGE] at le ⊢
  omega

omit [DecidableEq ι] in
/-- What the environment changes keeps the invariant. -/
theorem frame (inv : Inv s L) {h : Heap} (rep : Represents h L) (bump : h.bump = s.heap.bump) :
    Inv { s with heap := h } L :=
  ⟨rep, inv.total, inv.nodup, inv.wf, bump ▸ inv.bump, inv.thread⟩

theorem callAlloc (inv : Inv s L) {size : Nat} (idle : s.pc t = .idle) (pos : 0 < size)
    (le : size ≤ BACKEND_MAX_PAGE * PG_SIZE) :
    Inv { s with pc := Function.update s.pc t (allocEntry size) } L := by
  have horigin := originSize_lt le
  refine inv.silent ?_ ?_
  · rw [idle, allocEntry, if_pos horigin]
    rfl
  · rw [allocEntry, if_pos horigin]
    exact ⟨pos, le, le_refl _, horigin⟩

theorem callFree (inv : Inv s L) {ptr size : Nat} (idle : s.pc t = .idle)
    (live : blockOf ptr size ∈ s.live) :
    Inv { s with
      pc := Function.update s.pc t (.freePrev ptr size)
      live := s.live.erase (blockOf ptr size) } L := by
  refine inv.moved inv.rep rfl ?_ trivial
  rw [idle]
  nth_rewrite 2 [← Multiset.cons_erase live]
  simp [Pc.held, add_comm]

omit [DecidableEq ι] in
theorem store (inv : Inv s L) {mem : Mem}
    (same : ∀ x, x / PG_SIZE ∈ s.carved → x / PG_SIZE ∉ s.livePages → mem x = s.heap.mem x) :
    Inv { s with heap := { s.heap with mem } } L :=
  inv.frame (inv.rep.congr rfl
    (fun x hx => same x (inv.free_carved hx) fun hlive => inv.live_not_free hlive hx)
    (fun _ _ => rfl) fun _ hp => inv.rep.nonneg hp) rfl

omit [DecidableEq ι] in
theorem setEntry (inv : Inv s L) {tree : RadixTree} {p : Nat} {v : Int} (mine : p ∈ s.livePages)
    (nonneg : 0 ≤ v) (entry : ∀ q, tree.entry q = if q = p then v else s.heap.tree.entry q) :
    Inv { s with heap := { s.heap with tree } } L := by
  refine inv.frame (inv.rep.congr rfl (fun x _ => rfl) (fun q hq => ?_) fun q hq => ?_) rfl
  · have hne : q ≠ p := fun h => inv.live_not_free mine (h ▸ hq)
    exact (entry q).trans (if_neg hne)
  · by_cases hqp : q = p
    · exact ((entry q).trans (if_pos hqp)).symm ▸ nonneg
    · exact ((entry q).trans (if_neg hqp)).symm ▸ inv.rep.nonneg hq

/-- Every step keeps the invariant. -/
theorem step (inv : Inv s L) {s' : State ι} {a : ι × Event} (hstep : Step s a s') :
    ∃ L', Inv s' L' := by
  cases hstep with
  | alloc size idle pos le => exact ⟨L, inv.callAlloc idle pos le⟩
  | free ptr size idle live clear => exact ⟨L, inv.callFree idle live⟩
  | @act t h c e mapped fresh next =>
      obtain ⟨h', c', e', L', hact, hinv, -⟩ := inv.advances (running_of_act next) fresh
      rw [hact] at next
      cases next
      exact ⟨L', hinv⟩
  | store mem same => exact ⟨L, inv.store same⟩
  | setEntry tree p v mine nonneg entry => exact ⟨L, inv.setEntry mine nonneg entry⟩

end Inv

/-- The invariant holds in every state of every run. -/
theorem inv_run {mem : Mem} {tr : List (ι × Event)} (run : Run Step (State.new mem) tr s) :
    ∃ L, Inv s L :=
  run.invariant (I := fun s => ∃ L, Inv s L) ⟨_, inv_new mem⟩ fun _ _ _ ⟨_, inv⟩ hstep =>
    inv.step hstep

end UniAlloc.FreeList
