import UniAlloc.FreeList.System
import Mathlib.Data.Fintype.BigOperators

/-!
# The page ledger

All runs of the system, live, free or in the hands of a thread, together cover the
carved pages exactly once. Runs are only ever split, so a page that starts a run
once starts every run it lies in afterwards; this keeps the neighbours derived
from stale tags harmless.
-/

namespace UniAlloc.FreeList

open Radix Transition

variable {ι : Type} [DecidableEq ι] [Fintype ι]

/-- The run a thread has taken and not yet passed on. -/
def Pc.held : Pc → Multiset Block
  | .allocSplit _ parentIdx parent => {⟨parent, parentIdx + 1⟩}
  | .freePrev ptr size => {blockOf ptr size}
  | .freeMergePrev ptr size _ => {blockOf ptr size}
  | .freeNext _ _ finalPtr finalIdx => {⟨finalPtr, finalIdx + 1⟩}
  | .freeMergeNext _ _ finalPtr finalIdx _ => {⟨finalPtr, finalIdx + 1⟩}
  | .freeInsert finalPtr finalIdx => {⟨finalPtr, finalIdx + 1⟩}
  | _ => 0

/-- What the threads other than `t` hold. -/
def others (pc : ι → Pc) (t : ι) : Multiset Block := ∑ u ∈ Finset.univ.erase t, (pc u).held

/-- All runs of the system. -/
def blocks (live : Multiset Block) (L : Nat → List Nat) (pc : ι → Pc) : Multiset Block :=
  live + freeBlocks L + ∑ t, (pc t).held

theorem blocks_update (live : Multiset Block) (L : Nat → List Nat) (pc : ι → Pc) (t : ι) (c : Pc) :
    blocks live L (Function.update pc t c) = live + freeBlocks L + c.held + others pc t := by
  have hrest : ∑ u ∈ Finset.univ.erase t, (Function.update pc t c u).held = others pc t :=
    Finset.sum_congr rfl fun u hu => by rw [Function.update_of_ne (Finset.ne_of_mem_erase hu)]
  rw [blocks, ← Finset.add_sum_erase _ _ (Finset.mem_univ t), hrest, Function.update_self,
    ← add_assoc]

theorem blocks_eq (live : Multiset Block) (L : Nat → List Nat) (pc : ι → Pc) (t : ι) :
    blocks live L pc = live + freeBlocks L + (pc t).held + others pc t := by
  have h := blocks_update live L pc t (pc t)
  rwa [Function.update_eq_self] at h

/-- Every run of `bs'` is the front or the rest of a run of `bs`, or new. -/
def Refines (carved : Multiset Nat) (bs bs' : Multiset Block) : Prop :=
  ∀ b' ∈ bs', (∃ b ∈ bs, b'.pages ⊆ b.pages ∧ (b.ptr = b'.ptr ∨ b.ptr / PG_SIZE ∉ b'.pages)) ∨
    ∀ p ∈ b'.pages, p ∉ carved

theorem Refines.of_subset {carved : Multiset Nat} {bs bs' : Multiset Block} (h : bs' ⊆ bs) :
    Refines carved bs bs' :=
  fun b hb => Or.inl ⟨b, h hb, fun _ hp => hp, Or.inl rfl⟩

theorem Refines.add_right {carved : Multiset Nat} {bs bs' : Multiset Block}
    (h : Refines carved bs bs') (rest : Multiset Block) :
    Refines carved (bs + rest) (bs' + rest) := by
  intro b' hb'
  rcases Multiset.mem_add.mp hb' with hb' | hb'
  · rcases h b' hb' with ⟨b, hb, hsub⟩ | hnew
    · exact Or.inl ⟨b, Multiset.mem_add.mpr (Or.inl hb), hsub⟩
    · exact Or.inr hnew
  · exact Or.inl ⟨b', Multiset.mem_add.mpr (Or.inr hb'), fun _ hp => hp, Or.inl rfl⟩

/-- Address `a` starts every run its page lies in. -/
structure Boundary (carved : Multiset Nat) (bs : Multiset Block) (a : Nat) : Prop where
  carved : a / PG_SIZE ∈ carved
  starts : ∀ b ∈ bs, a / PG_SIZE ∈ b.pages → b.ptr = a

/-- Splitting and carving runs keep boundaries. -/
theorem Boundary.refine {carved carved' : Multiset Nat} {bs bs' : Multiset Block} {a : Nat}
    (h : Boundary carved bs a) (le : carved ≤ carved') (refines : Refines carved bs bs') :
    Boundary carved' bs' a := by
  refine ⟨Multiset.mem_of_le le h.carved, fun b' hb' ha => ?_⟩
  rcases refines b' hb' with ⟨b, hb, hsub, hptr | hout⟩ | hnew
  · exact hptr.symm.trans (h.starts b hb (hsub ha))
  · rw [h.starts b hb (hsub ha)] at hout
    exact absurd ha hout
  · exact absurd h.carved (hnew _ ha)

/-- What holds of a thread at each program point. -/
def ThreadOk (carved : Multiset Nat) (bs : Multiset Block) : Pc → Prop
  | .allocScan size idx =>
      0 < size ∧ size ≤ BACKEND_MAX_PAGE * PG_SIZE ∧ originSize size ≤ idx ∧ idx < BACKEND_MAX_PAGE
  | .allocSplit size parentIdx _ => originSize size < parentIdx ∧ parentIdx < BACKEND_MAX_PAGE
  | .allocBump size => 0 < size ∧ size ≤ BACKEND_MAX_PAGE * PG_SIZE
  | .freeMergePrev ptr _ pflag => 0 < pflag ∧ pflag ≤ BACKEND_MAX_PAGE ∧ pflag * PG_SIZE < ptr ∧
      Boundary carved bs (ptr - pflag * PG_SIZE)
  | .freeNext ptr size finalPtr finalIdx => finalPtr = ptr ∧ finalIdx = originSize size
  | .freeMergeNext ptr size finalPtr finalIdx nflag =>
      finalPtr = ptr ∧ finalIdx = originSize size ∧ 0 < nflag ∧ nflag ≤ BACKEND_MAX_PAGE ∧
        Boundary carved bs (ptr + (originSize size + 1) * PG_SIZE)
  | _ => True

theorem ThreadOk.refine {carved carved' : Multiset Nat} {bs bs' : Multiset Block} {pc : Pc}
    (h : ThreadOk carved bs pc) (le : carved ≤ carved') (refines : Refines carved bs bs') :
    ThreadOk carved' bs' pc := by
  cases pc with
  | freeMergePrev ptr size pflag =>
      obtain ⟨hpos, hle, hlt, hb⟩ := h
      exact ⟨hpos, hle, hlt, hb.refine le refines⟩
  | freeMergeNext ptr size finalPtr finalIdx nflag =>
      obtain ⟨hptr, hidx, hpos, hle, hb⟩ := h
      exact ⟨hptr, hidx, hpos, hle, hb.refine le refines⟩
  | _ => exact h

/-- The rest of the current region has never been carved. -/
structure BumpOk (bump : BumpAlloc) (carved : Multiset Nat) : Prop where
  aligned : bump.checkPoint % PG_SIZE = 0 ∧ bump.current % PG_SIZE = 0
  le : bump.checkPoint ≤ bump.current
  pos : bump.checkPoint < bump.current → 0 < bump.checkPoint
  bound : bump.current / PG_SIZE ≤ 2 ^ 35
  fresh : ∀ p ∈ carved, p < bump.checkPoint / PG_SIZE ∨ bump.current / PG_SIZE ≤ p

/-- The invariant of the system. `L` is what the lists contain. -/
structure Inv (s : State ι) (L : Nat → List Nat) : Prop where
  rep : Represents s.heap L
  total : (blocks s.live L s.pc).bind Block.pages = s.carved
  nodup : s.carved.Nodup
  wf : ∀ b ∈ blocks s.live L s.pc, b.Wf
  bump : BumpOk s.heap.bump s.carved
  thread : ∀ t, ThreadOk s.carved (blocks s.live L s.pc) (s.pc t)

theorem freeBlocks_empty : freeBlocks (fun _ => []) = 0 := by
  refine Multiset.eq_zero_of_forall_notMem fun b hb => ?_
  obtain ⟨idx, -, a, ha, -⟩ := mem_freeBlocks.mp hb
  cases ha

omit [DecidableEq ι] in
theorem inv_new (mem : Mem) : Inv (State.new mem : State ι) fun _ => [] := by
  have hblocks : blocks 0 (fun _ => []) (fun _ : ι => Pc.idle) = 0 := by
    simp [blocks, freeBlocks_empty, Pc.held]
  have apart : Apart fun _ => [] := by
    constructor <;> simp [freePages, freeBlocks_empty]
  constructor
  case rep =>
    refine ⟨fun idx _ => ⟨rfl, trivial⟩, ⟨fun idx _ a ha => ?_, fun p hp => ?_⟩, apart⟩
    · exact absurd ha List.not_mem_nil
    · exact absurd hp (lt_irrefl 0)
  case bump => constructor <;> simp [State.new, Heap.new, BumpAlloc.new]
  case thread => exact fun t => trivial
  all_goals simp [State.new, hblocks]

namespace Inv

variable {s : State ι} {L L' : Nat → List Nat} {t : ι}

omit [DecidableEq ι] in
theorem wf_of_free (inv : Inv s L) {b : Block} (hb : b ∈ freeBlocks L) : b.Wf :=
  inv.wf b (Multiset.mem_add.mpr (Or.inl (Multiset.mem_add.mpr (Or.inr hb))))

theorem mem_of_held {b : Block} (hb : b ∈ (s.pc t).held) : b ∈ blocks s.live L s.pc := by
  rw [blocks_eq _ _ _ t]
  exact Multiset.mem_add.mpr (Or.inl (Multiset.mem_add.mpr (Or.inr hb)))

omit [DecidableEq ι] in
theorem mem_of_live {b : Block} (hb : b ∈ s.live) : b ∈ blocks s.live L s.pc :=
  Multiset.mem_add.mpr (Or.inl (Multiset.mem_add.mpr (Or.inl hb)))

/-- The rule of all steps of a thread: it says how the step changes the runs that
are live, free or in the thread's hands. -/
theorem next (inv : Inv s L) (t : ι) (c : Pc) (live : Multiset Block) (new : Multiset Nat)
    {h : Heap} (rep : Represents h L')
    (total : (live + freeBlocks L' + c.held).bind Block.pages =
      new + (s.live + freeBlocks L + (s.pc t).held).bind Block.pages)
    (fresh : new.Nodup ∧ ∀ p ∈ new, p ∉ s.carved)
    (wf : ∀ b ∈ live + freeBlocks L' + c.held, b.Wf)
    (refines : Refines s.carved (s.live + freeBlocks L + (s.pc t).held)
      (live + freeBlocks L' + c.held))
    (bump : BumpOk h.bump (new + s.carved))
    (ok : ThreadOk (new + s.carved) (blocks live L' (Function.update s.pc t c)) c) :
    Inv ⟨h, Function.update s.pc t c, live, new + s.carved⟩ L' := by
  have hold := blocks_eq s.live L s.pc t
  have hnew := blocks_update live L' s.pc t c
  have hrefines : Refines s.carved (blocks s.live L s.pc)
      (blocks live L' (Function.update s.pc t c)) := by
    rw [hold, hnew]
    exact refines.add_right _
  constructor
  case rep => exact rep
  case total =>
    have htotal := inv.total
    rw [hold, Multiset.add_bind] at htotal
    rw [hnew, Multiset.add_bind, total, add_assoc, htotal]
  case nodup =>
    exact Multiset.nodup_add.mpr ⟨fresh.1, inv.nodup, Multiset.disjoint_left.mpr (fresh.2 _)⟩
  case wf =>
    intro b hb
    rw [hnew] at hb
    rcases Multiset.mem_add.mp hb with hb | hb
    · exact wf b hb
    · exact inv.wf b (hold ▸ Multiset.mem_add.mpr (Or.inr hb))
  case bump => exact bump
  case thread =>
    intro u
    by_cases hu : u = t
    · subst hu
      simpa using ok
    · simp only [Function.update_of_ne hu]
      exact (inv.thread u).refine (Multiset.le_add_left _ _) hrefines

/-- A step that passes runs on without changing them. -/
theorem moved (inv : Inv s L) {h : Heap} {c : Pc} {live : Multiset Block}
    (rep : Represents h L') (bump : h.bump = s.heap.bump)
    (same : live + freeBlocks L' + c.held = s.live + freeBlocks L + (s.pc t).held)
    (ok : ThreadOk s.carved (blocks s.live L s.pc) c) :
    Inv ⟨h, Function.update s.pc t c, live, s.carved⟩ L' := by
  have hsame : blocks live L' (Function.update s.pc t c) = blocks s.live L s.pc := by
    rw [blocks_update, same, ← blocks_eq]
  have hnext := inv.next t c live 0 rep (by rw [same, zero_add])
    (by simp) (fun b hb => inv.wf b (by
      rw [same] at hb
      rw [blocks_eq _ _ _ t]
      exact Multiset.mem_add.mpr (Or.inl hb)))
    (Refines.of_subset (by rw [same]; exact fun _ h => h))
    (by rw [bump, zero_add]; exact inv.bump) (by rwa [zero_add, hsame])
  rwa [zero_add] at hnext

/-- A step that changes neither the heap nor the hands. -/
theorem silent (inv : Inv s L) {c : Pc} (held : c.held = (s.pc t).held)
    (ok : ThreadOk s.carved (blocks s.live L s.pc) c) :
    Inv { s with pc := Function.update s.pc t c } L :=
  inv.moved inv.rep rfl (by rw [held]) ok

end Inv

end UniAlloc.FreeList
