import UniAlloc.FreeList.Lists
import UniAlloc.Transition.Basic
import Mathlib.Data.Fintype.Basic

/-!
# Threads calling the page backend

`FreeList::alloc` and `FreeList::free` are embedded as programs of a thread.
Every access to a locked list, to `BUMP` or to a radix entry outside the locks is
one action. Between the actions of the threads the callers may write to the
memory and the radix entries of the runs they hold.
-/

namespace UniAlloc.FreeList

open Radix

/-- Program points. The arguments are the live locals of the source. -/
inductive Pc where
  | idle
  | allocScan (size idx : Nat)
  | allocSplit (size parentIdx parent : Nat)
  | allocBump (size : Nat)
  | freePrev (ptr size : Nat)
  | freeMergePrev (ptr size pflag : Nat)
  | freeNext (ptr size finalPtr finalIdx : Nat)
  | freeMergeNext (ptr size finalPtr finalIdx nflag : Nat)
  | freeInsert (finalPtr finalIdx : Nat)
  deriving DecidableEq

/-- What a step shows. `taken` and `carved` are the two ways `alloc` returns `Ok`:
from a list and from `BUMP`. -/
inductive Event where
  | tau
  | callAlloc (size : Nat)
  | callFree (ptr size : Nat)
  | taken (ptr size : Nat)
  | carved (ptr size : Nat)
  | failed
  | freed
  | unmapped (ptr num : Nat)
  deriving DecidableEq

/-- The first action of `alloc`. -/
def allocEntry (size : Nat) : Pc :=
  if originSize size < BACKEND_MAX_PAGE then .allocScan size (originSize size) else .allocBump size

/-- The next action of a thread inside a call. `mapped` is what `mmap` returns if
`BUMP` needs a new region. -/
def act (h : Heap) (mapped : Nat) : Pc → Option (Heap × Pc × Event)
  | .idle => none
  | .allocScan size idx => do
      let (h, ans) ← removeOne h idx
      match ans with
      | some ptr =>
          if idx = originSize size then some (h, .idle, .taken ptr size)
          else some (h, .allocSplit size idx ptr, .tau)
      | none =>
          if idx + 1 < BACKEND_MAX_PAGE then some (h, .allocScan size (idx + 1), .tau)
          else some (h, .allocBump size, .tau)
  | .allocSplit size parentIdx parent => do
      let remain := parent + PG_SIZE * (originSize size + 1)
      let h ← insertNew h (parentIdx - originSize size - 1) remain
      some (h, .idle, .taken parent size)
  | .allocBump size =>
      match h.bump.alloc size mapped with
      | (bump, .ok ptr) => some ({ h with bump }, .idle, .carved ptr size)
      | (bump, .error _) => some ({ h with bump }, .idle, .failed)
  | .freePrev ptr size =>
      if ptr < PG_SIZE then none
      else do
        let v ← TreeNode.getMut h.tree (pageKey (ptr - PG_SIZE))
        if flag v > 0 then some (h, .freeMergePrev ptr size (flag v).toNat, .tau)
        else some (h, .freeNext ptr size ptr (originSize size), .tau)
  | .freeMergePrev ptr size pflag =>
      if ptr < pflag * PG_SIZE then none
      else do
        let (h, prev) ← removeSpecOne h (pflag - 1) (ptr - pflag * PG_SIZE)
        match prev with
        | some prevPtr => some (h, .freeNext ptr size prevPtr (originSize size + pflag), .tau)
        | none => some (h, .freeNext ptr size ptr (originSize size), .tau)
  | .freeNext ptr size finalPtr finalIdx => do
      let v ← TreeNode.getMut h.tree (pageKey (ptr + (originSize size + 1) * PG_SIZE))
      if flag v > 0 then some (h, .freeMergeNext ptr size finalPtr finalIdx (flag v).toNat, .tau)
      else some (h, .freeInsert finalPtr finalIdx, .tau)
  | .freeMergeNext ptr size finalPtr finalIdx nflag => do
      let (h, next) ← removeSpecOne h (nflag - 1) (ptr + (originSize size + 1) * PG_SIZE)
      match next with
      | some _ => some (h, .freeInsert finalPtr (finalIdx + nflag), .tau)
      | none => some (h, .freeInsert finalPtr finalIdx, .tau)
  | .freeInsert finalPtr finalIdx =>
      if finalIdx < BACKEND_MAX_PAGE then do
        let h ← insertNew h finalIdx finalPtr
        some (h, .idle, .freed)
      else some (h, .idle, .unmapped finalPtr (finalIdx + 1))

/-- The run a request of `size` bytes at `ptr` stands for. -/
def blockOf (ptr size : Nat) : Block := ⟨ptr, originSize size + 1⟩

/-- The heap, the program points of the threads, the runs the callers hold, and
the pages carved from `BUMP` so far. -/
structure State (ι : Type) where
  heap : Heap
  pc : ι → Pc
  live : Multiset Block
  carved : Multiset Nat

variable {ι : Type}

namespace State

/-- No call has been made; the memory is arbitrary. -/
def new (mem : Mem) : State ι := ⟨Heap.new mem, fun _ => .idle, 0, 0⟩

def livePages (s : State ι) : Multiset Nat := s.live.bind Block.pages

/-- The runs change hands when a call returns. -/
def record (s : State ι) : Event → State ι
  | .taken ptr size => { s with live := blockOf ptr size ::ₘ s.live }
  | .carved ptr size =>
      { s with live := blockOf ptr size ::ₘ s.live, carved := (blockOf ptr size).pages + s.carved }
  | .unmapped ptr num => { s with carved := s.carved - (⟨ptr, num⟩ : Block).pages }
  | _ => s

@[simp] theorem record_heap (s : State ι) (e : Event) : (s.record e).heap = s.heap := by
  cases e <;> rfl

@[simp] theorem record_pc (s : State ι) (e : Event) : (s.record e).pc = s.pc := by
  cases e <;> rfl

end State

/-- What is assumed of `mmap`: a page-aligned region of user space that overlaps
no page in use. -/
structure FreshRegion (carved : Multiset Nat) (mapped : Nat) : Prop where
  aligned : mapped % PG_SIZE = 0
  pos : 0 < mapped
  bound : mapped / PG_SIZE + BumpAlloc.DEFAULT_SIZE / PG_SIZE ≤ 2 ^ 35
  fresh : ∀ p ∈ carved,
    p < mapped / PG_SIZE ∨ mapped / PG_SIZE + BumpAlloc.DEFAULT_SIZE / PG_SIZE ≤ p

instance (carved : Multiset Nat) (mapped : Nat) : Decidable (FreshRegion carved mapped) :=
  decidable_of_iff (mapped % PG_SIZE = 0 ∧ 0 < mapped ∧
      mapped / PG_SIZE + BumpAlloc.DEFAULT_SIZE / PG_SIZE ≤ 2 ^ 35 ∧ ∀ p ∈ carved,
        p < mapped / PG_SIZE ∨ mapped / PG_SIZE + BumpAlloc.DEFAULT_SIZE / PG_SIZE ≤ p)
    ⟨fun ⟨aligned, pos, bound, fresh⟩ => ⟨aligned, pos, bound, fresh⟩,
      fun ⟨aligned, pos, bound, fresh⟩ => ⟨aligned, pos, bound, fresh⟩⟩

/-- The next action maps a new region. -/
def Maps (h : Heap) : Pc → Prop
  | .allocBump size => h.bump.Exhausted size
  | _ => False

instance (h : Heap) (pc : Pc) : Decidable (Maps h pc) :=
  match pc with
  | .allocBump size => inferInstanceAs (Decidable (h.bump.Exhausted size))
  | .idle | .allocScan .. | .allocSplit .. | .freePrev .. | .freeMergePrev .. | .freeNext ..
  | .freeMergeNext .. | .freeInsert .. => isFalse id

variable [DecidableEq ι]

/-- One step of the whole system. -/
inductive Step : State ι → ι × Event → State ι → Prop where
  | alloc {s t} (size) (idle : s.pc t = .idle) (pos : 0 < size)
      (le : size ≤ BACKEND_MAX_PAGE * PG_SIZE) :
      Step s (t, .callAlloc size) { s with pc := Function.update s.pc t (allocEntry size) }
  /-- A live run is freed with its size, after its radix entries have been cleared. -/
  | free {s t} (ptr size) (idle : s.pc t = .idle) (live : blockOf ptr size ∈ s.live)
      (clear : ∀ p ∈ (blockOf ptr size).pages, s.heap.tree.entry p = 0) :
      Step s (t, .callFree ptr size)
        { s with
          pc := Function.update s.pc t (.freePrev ptr size)
          live := s.live.erase (blockOf ptr size) }
  | act {s t h pc e} (mapped) (fresh : Maps s.heap (s.pc t) → FreshRegion s.carved mapped)
      (next : FreeList.act s.heap mapped (s.pc t) = some (h, pc, e)) :
      Step s (t, e) (State.record { s with heap := h, pc := Function.update s.pc t pc } e)
  /-- Callers and the system write to memory that is not in the backend's hands. -/
  | store {s t} (mem)
      (same : ∀ x, x / PG_SIZE ∈ s.carved → x / PG_SIZE ∉ s.livePages → mem x = s.heap.mem x) :
      Step s (t, .tau) { s with heap := { s.heap with mem } }
  /-- A caller registers one of its pages in the radix tree, or clears it. -/
  | setEntry {s t} (tree p v) (mine : p ∈ s.livePages) (nonneg : 0 ≤ v)
      (entry : ∀ q, tree.entry q = if q = p then v else s.heap.tree.entry q) :
      Step s (t, .tau) { s with heap := { s.heap with tree } }

theorem running_of_act {heap h : Heap} {mapped : Nat} {pc c : Pc} {e : Event}
    (next : act heap mapped pc = some (h, c, e)) : pc ≠ .idle := fun hpc => by
  rw [hpc] at next
  cases next

/-- Inside a call no other call starts. -/
theorem act_ne_callFree {heap h : Heap} {mapped ptr size : Nat} {pc c : Pc} :
    act heap mapped pc ≠ some (h, c, .callFree ptr size) := by
  intro next
  cases pc with
  | idle => cases next
  | allocScan size idx =>
      obtain ⟨⟨h₁, ans⟩, -, next⟩ := Option.bind_eq_some_iff.mp next
      cases ans <;> simp only at next <;> split at next <;> cases next
  | allocSplit size parentIdx parent =>
      obtain ⟨h₁, -, next⟩ := Option.bind_eq_some_iff.mp next
      cases next
  | allocBump size =>
      simp only [act] at next
      split at next <;> cases next
  | freePrev ptr size =>
      obtain ⟨-, next⟩ := Option.ite_none_left_eq_some.mp next
      obtain ⟨v, -, next⟩ := Option.bind_eq_some_iff.mp next
      split at next <;> cases next
  | freeMergePrev ptr size pflag =>
      obtain ⟨-, next⟩ := Option.ite_none_left_eq_some.mp next
      obtain ⟨⟨h₁, prev⟩, -, next⟩ := Option.bind_eq_some_iff.mp next
      cases prev <;> cases next
  | freeNext ptr size finalPtr finalIdx =>
      obtain ⟨v, -, next⟩ := Option.bind_eq_some_iff.mp next
      split at next <;> cases next
  | freeMergeNext ptr size finalPtr finalIdx nflag =>
      obtain ⟨⟨h₁, next'⟩, -, next⟩ := Option.bind_eq_some_iff.mp next
      cases next' <;> cases next
  | freeInsert finalPtr finalIdx =>
      simp only [act] at next
      split at next
      · obtain ⟨h₁, -, next⟩ := Option.bind_eq_some_iff.mp next
        cases next
      · cases next

/-- What a scheduler may let a thread do next. -/
inductive Move where
  | alloc (size : Nat)
  | free (ptr size : Nat)
  | act (mapped : Nat)

/-- The step a move of thread `t` stands for, if the thread can make it. -/
def State.move (s : State ι) (t : ι) : Move → Option ((ι × Event) × State ι)
  | .alloc size =>
      if s.pc t = .idle ∧ 0 < size ∧ size ≤ BACKEND_MAX_PAGE * PG_SIZE then
        some ((t, .callAlloc size), { s with pc := Function.update s.pc t (allocEntry size) })
      else none
  | .free ptr size =>
      if s.pc t = .idle ∧ blockOf ptr size ∈ s.live ∧
          ∀ p ∈ (blockOf ptr size).pages, s.heap.tree.entry p = 0 then
        some ((t, .callFree ptr size),
          { s with
            pc := Function.update s.pc t (.freePrev ptr size)
            live := s.live.erase (blockOf ptr size) })
      else none
  | .act mapped =>
      if Maps s.heap (s.pc t) → FreshRegion s.carved mapped then
        match FreeList.act s.heap mapped (s.pc t) with
        | some (h, pc, e) =>
            some ((t, e), State.record { s with heap := h, pc := Function.update s.pc t pc } e)
        | none => none
      else none

theorem State.move_step {s : State ι} {t : ι} {m : Move} {x} (h : s.move t m = some x) :
    Step s x.1 x.2 := by
  cases m with
  | alloc size =>
      obtain ⟨⟨idle, pos, le⟩, h⟩ := Option.ite_none_right_eq_some.mp h
      cases h
      exact .alloc size idle pos le
  | free ptr size =>
      obtain ⟨⟨idle, live, clear⟩, h⟩ := Option.ite_none_right_eq_some.mp h
      cases h
      exact .free ptr size idle live clear
  | act mapped =>
      obtain ⟨fresh, h⟩ := Option.ite_none_right_eq_some.mp h
      split at h
      · next next => cases h; exact .act mapped fresh next
      · cases h

/-- The path a schedule takes. -/
def play (s : State ι) (moves : List (ι × Move)) : List ((ι × Event) × State ι) :=
  Transition.play (fun s m => s.move m.1 m.2) s moves

theorem play_path (s : State ι) (moves : List (ι × Move)) :
    Transition.Path Step s (play s moves) :=
  Transition.play_path (fun h => State.move_step h) s moves

end UniAlloc.FreeList
