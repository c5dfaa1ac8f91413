import UniAlloc.Bump.Meta
import UniAlloc.Transition.Basic

/-!
# The thread caches of the default build

`tls_static!` keeps the cache of a thread behind the thread local `GlobalTcache_VALUE`. The first
use of `GlobalTcache` takes a block from `META_BUMP` and stores it under a pthread key whose
destructor is `free_thread_cache`; every later use goes through the thread local. `Step`
interleaves any number of threads, the destructors that run when a thread exits, and the other
callers of `META_BUMP`.
-/

namespace UniAlloc.Tls

open MetaBump (Sizes Callable Maps)

/-- Program points of a thread, each named by what comes next. -/
inductive Pc where
  | idle
  | load
  | boxNew
  | store (ptr : Nat)
  | checkTsd
  | registerKey
  | setTsd
  | saveTls
  | inUse (ptr : Nat)
  | cleanUp (ptr : Nat)
  deriving DecidableEq

/-- The cache that the thread reads and writes at this point. -/
def Pc.block : Pc → Option Nat
  | .store ptr | .inUse ptr | .cleanUp ptr => some ptr
  | _ => none

inductive Phase where
  | running
  | dying
  | exited
  deriving DecidableEq

/-- A thread: `value` is its `GlobalTcache_VALUE`, `specific` are its values of the pthread keys,
and `cleaned` says whether `free_thread_cache` has run on it. -/
structure Thread where
  pc : Pc
  value : Nat
  specific : Nat → Nat
  phase : Phase
  cleaned : Bool

/-- What the threads share; `keys` counts the pthread keys created so far. -/
structure Shared where
  bump : MetaBump.State
  tsdInitialized : Bool
  pkey : Nat
  keys : Nat

/-- The next action of a thread in `deref_mut`, at the end of a use of the cache, or at the end of
`free_thread_cache`; `start` is what `mmap` returns if `META_BUMP` calls it. -/
def act (sz : Sizes) (start : Nat) (sh : Shared) (th : Thread) : Option (Shared × Thread) :=
  match th.pc with
  | .idle => none
  | .load =>
      if th.value ≠ 0 then some (sh, { th with pc := .inUse th.value })
      else some (sh, { th with pc := .boxNew })
  | .boxNew =>
      -- `expect("err")` panics where `META_BUMP` has nothing
      match (sh.bump.metaBump.alloc .mapped sz sh.bump.mem sz.threadCache start).2 with
      | some ptr =>
          some ({ sh with bump := sh.bump.alloc .mapped sz sz.threadCache start },
            { th with pc := .store ptr })
      | none => none
  | .store ptr => some (sh, { th with value := ptr, pc := .checkTsd })
  | .checkTsd =>
      if sh.tsdInitialized = false then some (sh, { th with pc := .registerKey })
      else some (sh, { th with pc := .saveTls })
  | .registerKey =>
      some ({ sh with pkey := sh.keys, keys := sh.keys + 1 }, { th with pc := .setTsd })
  | .setTsd => some ({ sh with tsdInitialized := true }, { th with pc := .saveTls })
  | .saveTls =>
      some (sh, { th with
        specific := Function.update th.specific sh.pkey th.value
        pc := .inUse th.value })
  | .inUse _ => some (sh, { th with pc := .idle })
  | .cleanUp ptr =>
      some ({ sh with bump := sh.bump.dealloc (ptr, sz.threadCache) },
        { th with pc := .idle, cleaned := true })

structure State where
  shared : Shared
  thread : Nat → Thread

namespace State

def new (mem : Mem) : State where
  shared := ⟨⟨mem, MetaBump.MetaBumpAlloc.new, [], []⟩, false, 0, 0⟩
  thread _ := ⟨.idle, 0, fun _ => 0, .running, false⟩

variable (s : State)

def setThread (t : Nat) (th : Thread) : State :=
  { s with thread := Function.update s.thread t th }

def setBump (bump : MetaBump.State) : State := { s with shared := { s.shared with bump } }

end State

/-- The thread has the block from `META_BUMP` and has not given it back. -/
def Thread.Holds (th : Thread) (ptr : Nat) : Prop :=
  th.pc = .store ptr ∨ th.value = ptr ∧ ptr ≠ 0 ∧ th.cleaned = false

inductive Move where
  | call (t : Nat)
  | act (t start : Nat)
  | store (t a v : Nat)
  | exit (t : Nat)
  | destructor (t key : Nat)
  | gone (t : Nat)
  | alloc (size start : Nat)
  | dealloc (block : Nat × Nat)
  | write (a v : Nat)
  deriving DecidableEq

/-- A thread calls the allocator, performs its next action or writes to its cache; a thread starts
to exit, a key's destructor starts with the key's value, which is reset, or the thread is gone, in
any order; or another caller of `META_BUMP` takes a block, gives one back, or writes to its own. -/
inductive Step (sz : Sizes) : State → Move → State → Prop where
  | call {s t} : (s.thread t).pc = .idle → (s.thread t).phase ≠ .exited →
      Step sz s (.call t) (s.setThread t { s.thread t with pc := .load })
  | act {s t start sh th} : ((s.thread t).pc = .boxNew → Maps s.shared.bump.owned start) →
      Tls.act sz start s.shared (s.thread t) = some (sh, th) →
      Step sz s (.act t start) (State.setThread { s with shared := sh } t th)
  | store {s t a v ptr} : (s.thread t).pc.block = some ptr → ptr ≤ a → a < ptr + sz.threadCache →
      Step sz s (.store t a v) (s.setBump (s.shared.bump.store a v))
  | exit {s t} : (s.thread t).pc = .idle → (s.thread t).phase = .running →
      Step sz s (.exit t) (s.setThread t { s.thread t with phase := .dying })
  | destructor {s t key} : (s.thread t).pc = .idle → (s.thread t).phase = .dying →
      (s.thread t).specific key ≠ 0 →
      Step sz s (.destructor t key) (s.setThread t { s.thread t with
        specific := Function.update (s.thread t).specific key 0
        pc := .cleanUp ((s.thread t).specific key) })
  | gone {s t} : (s.thread t).pc = .idle → (s.thread t).phase = .dying →
      Step sz s (.gone t) (s.setThread t { s.thread t with phase := .exited })
  | alloc {s size start} : Callable s.shared.bump .mapped size start →
      Step sz s (.alloc size start) (s.setBump (s.shared.bump.alloc .mapped sz size start))
  | dealloc {s block} : block ∈ s.shared.bump.live →
      (∀ t, ¬(s.thread t).Holds block.1) →
      Step sz s (.dealloc block) (s.setBump (s.shared.bump.dealloc block))
  | write {s a v block} : block ∈ s.shared.bump.live → (∀ t, ¬(s.thread t).Holds block.1) →
      block.1 ≤ a → a < block.1 + block.2 →
      Step sz s (.write a v) (s.setBump (s.shared.bump.store a v))

/-- Following the links from the head of the backup list one arrives at `p`. -/
def Listed (bump : MetaBump.State) (p : Nat) : Prop :=
  ∃ l, Segment bump.mem bump.metaBump.backup l p ∧ 0 ∉ l ∧ p ≠ 0

/-- The thread exists and its `GlobalTcache_VALUE` points to a block. -/
def Thread.Reaches (th : Thread) (ptr : Nat) : Prop :=
  th.phase ≠ .exited ∧ th.value = ptr ∧ ptr ≠ 0

/-- No cache is reached by two threads, and no cache that a thread has not given back is on the
backup list. -/
structure Owned (sz : Sizes) (s : State) : Prop where
  unshared : ∀ t u p q, t ≠ u → (s.thread t).Reaches p → (s.thread u).Reaches q →
    PageBump.Apart (p, sz.threadCache) (q, sz.threadCache)
  unlisted : ∀ t p q, (s.thread t).Holds p → Listed s.shared.bump q →
    PageBump.Apart (p, sz.threadCache) (q, sz.threadCache)

/-- A thread on which `free_thread_cache` has run does not call the allocator any more; when a
block becomes the cache of a thread, the thread that gave it back is gone; and what is taken
from `META_BUMP` fits. -/
def Orderly (sz : Sizes) (s : State) : Move → Prop
  | .call t => (s.thread t).cleaned = false
  | .act t _ =>
      match (s.thread t).pc with
      | .boxNew => MetaBump.Fits s.shared.bump .mapped sz sz.threadCache
      | .store ptr => ∀ u, (s.thread u).cleaned = true → ¬(s.thread u).Reaches ptr
      | _ => True
  | .alloc size _ => MetaBump.Fits s.shared.bump .mapped sz size
  | _ => True

/-- The steps that meet the condition. -/
def OrderlyStep (sz : Sizes) (s : State) (m : Move) (t : State) : Prop :=
  Step sz s m t ∧ Orderly sz s m

end UniAlloc.Tls
