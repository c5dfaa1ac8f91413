import UniAlloc.Locks.Basic
import UniAlloc.SizeClass.Basic

/-!
# The locks of the build with a fixed heap

Every call of `RustAllocator` is a program over the spin locks of the allocator. The
cell says whether `FREELIST.lists` has been set; the first thread that finds it null
takes memory from `META_BUMP`. What depends on other data is left open, so that the
programs have every run the calls have.
-/

namespace UniAlloc.FixedLocks

open FreeList Locks Slab Transition

inductive Lock where
  | metaBump
  | pgBump
  | bump
  | list (idx : Nat)
  | slab (idx : Nat)
  deriving DecidableEq

abbrev Prog := Code Lock Bool

def BACKEND_MAX_PAGE : Nat := 32

/-- Goes on with `yes` or `no`, as data decides. -/
def either (yes no : Prog) : Prog := .choose fun c => if c = 1 then yes else no

/-- `get_slice`. -/
def getSlice (k : Prog) : Prog :=
  .access (fun lists => (lists, lists)) fun lists =>
    if lists then k
    else
      .lock .metaBump <| .unlock .metaBump <|
        -- the `compare_exchange`, and what the loser does
        .access (fun lists => (true, !lists)) fun won =>
          if won then k else .lock .metaBump (.unlock .metaBump k)

/-- `remove_one`. `found` says whether there was a run. -/
def removeOne (idx : Nat) (k : (found : Bool) → Prog) : Prog :=
  getSlice <| .lock (.list idx) <|
    either (.unlock (.list idx) (k true)) (.unlock (.list idx) (k false))

/-- `remove_spec_one`. -/
def removeSpecOne (idx : Nat) (k : (found : Bool) → Prog) : Prog :=
  getSlice <| .lock (.list idx) <|
    either (.unlock (.list idx) (k true)) (.unlock (.list idx) (k false))

/-- `insert_one`. -/
def insertOne (idx : Nat) (k : Prog) : Prog :=
  getSlice <| .lock (.list idx) <| .unlock (.list idx) k

/-- `origin_size`, an index of the lists for sizes that they serve. -/
def originSize (size : Nat) : Nat := ((size + PG_SIZE - 1) / PG_SIZE + 2 ^ 64 - 1) % 2 ^ 64

/-- The end of `alloc`. -/
def bumpAlloc (k : Prog) : Prog := .lock .bump (.unlock .bump k)

/-- The `while` loop of `alloc`, for the last `fuel` lists. -/
def parentLoop (origin : Nat) (k : Prog) : Nat → Prog
  | 0 => getSlice (bumpAlloc k)
  | fuel + 1 =>
      let parent := BACKEND_MAX_PAGE - (fuel + 1)
      getSlice <| removeOne parent fun found =>
        if found then insertOne (parent - origin - 1) k else parentLoop origin k fuel

/-- `FreeList::alloc`. -/
def freeListAlloc (size : Nat) (k : Prog) : Prog :=
  let origin := originSize size
  getSlice <|
    if origin < BACKEND_MAX_PAGE then
      removeOne origin fun found =>
        if found then k else parentLoop origin k (BACKEND_MAX_PAGE - (origin + 1))
    else bumpAlloc k

/-- A flag `pflag` or `nflag`: the number of pages of a free run, or nothing. -/
def flag (k : Nat → Prog) : Prog := .choose fun c => k (c % (BACKEND_MAX_PAGE + 1))

/-- One of the two checks of `free`. `k` gets the number of pages that are joined. -/
def checkNeighbour (k : Nat → Prog) : Prog :=
  flag fun pages =>
    if 0 < pages then removeSpecOne (pages - 1) fun found => k (if found then pages else 0)
    else k 0

/-- `FreeList::free`. -/
def freeListFree (size : Nat) (k : Prog) : Prog :=
  checkNeighbour fun before => checkNeighbour fun after =>
    let finalIdx := originSize size + before + after
    getSlice (if finalIdx < BACKEND_MAX_PAGE then insertOne finalIdx k else k)

/-- `BuddySystemAllocator::alloc`. -/
def backendAlloc (size : Nat) (k : Prog) : Prog :=
  if ISIZE_MAX < size then k else freeListAlloc size k

/-- `PageBumpAlloc::alloc`, which takes a page from the backend when its region is used up. -/
def pgBumpAlloc (k : Prog) : Prog := either (backendAlloc 4096 k) k

/-- `get_uninit`. The guard of `PG_BUMP` lives as long as the `if let`. -/
def getUninit (k : Prog) : Prog :=
  either (backendAlloc PAGE_SIZE k)
    (.lock .pgBump <| pgBumpAlloc <| backendAlloc PAGE_SIZE <| .unlock .pgBump k)

/-- `allocate_batch_from_slab`: a page of a ring, or a new one. -/
def allocateBatch (idx : Nat) (k : Prog) : Prog :=
  .lock (.slab idx) <|
    either (.unlock (.slab idx) k) (getUninit (.unlock (.slab idx) k))

/-- `RustAllocator::init`. -/
def init : Prog :=
  .lock .metaBump <| .lock .bump <| .unlock .bump <| .lock .pgBump <| .unlock .pgBump <|
    .unlock .metaBump .done

/-- `RustAllocator::extend`. The sizes are those of the new and of the old array. -/
def extend : Prog :=
  .lock .metaBump <| .lock .bump <| .unlock .bump <|
    .choose fun arraySize => backendAlloc arraySize <|
      .lock .pgBump <| .unlock .pgBump <|
        either (.unlock .metaBump .done)
          (.choose fun prevSize => freeListFree prevSize (.unlock .metaBump .done))

/-- `RustAllocator::alloc`. A block of the thread cache needs no lock. -/
def alloc (size : Nat) : Prog :=
  match smallSizeClass.getSizeClass size with
  | .base idx =>
      if idx = 0 then .done
      else if idx < smallSizeClass.TOTAL_SIZE_CLASS then
        either .done (allocateBatch idx .done)
      else .done
  | .large _ => backendAlloc size .done

/-- `RustAllocator::dealloc`. -/
def dealloc (size : Nat) : Prog :=
  match smallSizeClass.getSizeClass size with
  | .base _ => .done
  | .large _ => freeListFree size .done

inductive Call where
  | init
  | extend
  | alloc (size : Nat)
  | dealloc (size : Nat)

def Call.prog : Call → Prog
  | .init => FixedLocks.init
  | .extend => FixedLocks.extend
  | .alloc size => FixedLocks.alloc size
  | .dealloc size => FixedLocks.dealloc size

/-- A thread that holds `META_BUMP` does not find `FREELIST.lists` null. -/
def Initialised (held : Set Lock) (lists : Bool) : Prop := .metaBump ∈ held → lists = true

/-- The locks that `FreeList` takes are free to take. -/
def Clear (held : Set Lock) : Prop := .bump ∉ held ∧ ∀ idx, .list idx ∉ held

section

variable {held : Set Lock} {k : Prog} {size idx : Nat}

theorem done_safe : Safe Initialised ∅ .done := by rw [Safe]

theorem either_safe {yes no : Prog} (hyes : Safe Initialised held yes)
    (hno : Safe Initialised held no) : Safe Initialised held (either yes no) := by
  intro c
  show Safe Initialised held (if c = 1 then yes else no)
  split
  · exact hyes
  · exact hno

/-- `get_slice` asks for `META_BUMP` if the lists are null. -/
theorem getSlice_safe (hk : Safe Initialised held k) : Safe Initialised held (getSlice k) := by
  intro lists
  cases lists with
  | true => exact ⟨fun _ => hk, fun bad => absurd (fun _ => rfl) bad⟩
  | false =>
      refine ⟨fun ok => ?_, fun bad => ?_⟩
      · have hmeta : Lock.metaBump ∉ held := fun h => Bool.noConfusion (ok h)
        refine Safe.section hmeta fun lists => ⟨fun _ => ?_, fun bad => ?_⟩
        · cases lists with
          | true => exact Safe.section hmeta hk
          | false => exact hk
        · exact absurd (fun h => absurd h hmeta) bad
      · obtain ⟨hmeta, -⟩ := Classical.not_imp.mp bad
        exact ⟨_, hmeta, _, rfl⟩

/-- A list is locked, and unlocked on both ways. -/
theorem listSection_safe (hlist : .list idx ∉ held) {k : Bool → Prog}
    (hk : ∀ found, Safe Initialised held (k found)) :
    Safe Initialised held (.lock (.list idx) <|
      either (.unlock (.list idx) (k true)) (.unlock (.list idx) (k false))) := by
  have hunlock : ∀ found, Safe Initialised (insert (.list idx) held)
      (.unlock (.list idx) (k found)) := fun found => (Safe.section hlist (hk found)).2
  exact ⟨hlist, either_safe (hunlock true) (hunlock false)⟩

theorem removeOne_safe (clear : Clear held) {k : Bool → Prog}
    (hk : ∀ found, Safe Initialised held (k found)) :
    Safe Initialised held (removeOne idx k) :=
  getSlice_safe (listSection_safe (clear.2 idx) hk)

theorem removeSpecOne_safe (clear : Clear held) {k : Bool → Prog}
    (hk : ∀ found, Safe Initialised held (k found)) :
    Safe Initialised held (removeSpecOne idx k) :=
  getSlice_safe (listSection_safe (clear.2 idx) hk)

theorem insertOne_safe (clear : Clear held) (hk : Safe Initialised held k) :
    Safe Initialised held (insertOne idx k) :=
  getSlice_safe (Safe.section (clear.2 idx) hk)

theorem bumpAlloc_safe (clear : Clear held) (hk : Safe Initialised held k) :
    Safe Initialised held (bumpAlloc k) := Safe.section clear.1 hk

theorem parentLoop_safe (clear : Clear held) (hk : Safe Initialised held k) (origin fuel : Nat) :
    Safe Initialised held (parentLoop origin k fuel) := by
  induction fuel with
  | zero => exact getSlice_safe (bumpAlloc_safe clear hk)
  | succ fuel ih =>
      refine getSlice_safe (removeOne_safe clear fun found => ?_)
      split
      · exact insertOne_safe clear hk
      · exact ih

theorem freeListAlloc_safe (clear : Clear held) (hk : Safe Initialised held k) :
    Safe Initialised held (freeListAlloc size k) := by
  simp only [freeListAlloc]
  generalize originSize size = origin
  refine getSlice_safe ?_
  split
  · refine removeOne_safe clear fun found => ?_
    split
    · exact hk
    · exact parentLoop_safe clear hk _ _
  · exact bumpAlloc_safe clear hk

theorem checkNeighbour_safe (clear : Clear held) {k : Nat → Prog}
    (hk : ∀ pages, Safe Initialised held (k pages)) :
    Safe Initialised held (checkNeighbour k) := by
  intro c
  beta_reduce
  split
  · exact removeSpecOne_safe clear fun found => hk _
  · exact hk 0

theorem freeListFree_safe (clear : Clear held) (hk : Safe Initialised held k) :
    Safe Initialised held (freeListFree size k) := by
  simp only [freeListFree]
  generalize originSize size = origin
  refine checkNeighbour_safe clear fun before => checkNeighbour_safe clear fun after => ?_
  refine getSlice_safe ?_
  split
  · exact insertOne_safe clear hk
  · exact hk

theorem backendAlloc_safe (clear : Clear held) (hk : Safe Initialised held k) :
    Safe Initialised held (backendAlloc size k) := by
  rw [backendAlloc]
  split
  · exact hk
  · exact freeListAlloc_safe clear hk

theorem getUninit_safe (clear : Clear held) (hpg : .pgBump ∉ held)
    (hk : Safe Initialised held k) : Safe Initialised held (getUninit k) := by
  have clear' : Clear (insert .pgBump held) := by
    simpa [Clear] using clear
  have hend : Safe Initialised (insert .pgBump held) (backendAlloc PAGE_SIZE (.unlock .pgBump k)) :=
    backendAlloc_safe clear' (Safe.section hpg hk).2
  exact either_safe (backendAlloc_safe clear hk)
    ⟨hpg, either_safe (backendAlloc_safe clear' hend) hend⟩

theorem allocateBatch_safe : Safe Initialised ∅ (allocateBatch idx .done) := by
  have hend : Safe Initialised (insert (.slab idx) ∅) (.unlock (.slab idx) .done) :=
    (Safe.section (Set.notMem_empty _) done_safe).2
  refine ⟨Set.notMem_empty _, either_safe hend (getUninit_safe ?_ ?_ hend)⟩
  · simp [Clear]
  · simp

theorem init_safe : Safe Initialised ∅ init := by
  refine ⟨Set.notMem_empty _, Safe.section ?_ (Safe.section ?_ ?_)⟩
  · simp
  · simp
  · exact (Safe.section (Set.notMem_empty _) done_safe).2

/-- `extend` holds `META_BUMP` all the time. -/
theorem extend_safe : Safe Initialised ∅ extend := by
  have clear : Clear (insert .metaBump ∅) := by simp [Clear]
  have hend : Safe Initialised (insert .metaBump ∅) (.unlock .metaBump .done) :=
    (Safe.section (Set.notMem_empty _) done_safe).2
  refine ⟨Set.notMem_empty _, Safe.section clear.1 fun arraySize => backendAlloc_safe clear ?_⟩
  refine Safe.section (by simp) (either_safe hend fun prevSize => ?_)
  exact freeListFree_safe clear hend

theorem prog_safe (c : Call) : Safe Initialised ∅ c.prog := by
  have clear : Clear ∅ := by simp [Clear]
  cases c with
  | init => exact init_safe
  | extend => exact extend_safe
  | alloc size =>
      simp only [Call.prog, alloc]
      split
      · split
        · exact done_safe
        · split
          · exact either_safe done_safe allocateBatch_safe
          · exact done_safe
      · exact backendAlloc_safe clear done_safe
  | dealloc size =>
      simp only [Call.prog, dealloc]
      split
      · exact done_safe
      · exact freeListFree_safe clear done_safe

end

variable {ι : Type} [DecidableEq ι]

/-- Before any call, `FREELIST.lists` is null and no lock is held. -/
def start : State ι Lock Bool := State.new false

/-- If thread `t` holds `META_BUMP`, as `extend` does, and is about to access
`FREELIST.lists`, then it does not find it null. -/
def FindsLists (s : State ι Lock Bool) (t : ι) : Prop :=
  ∀ f rest, s.code t = .access f rest → s.holder .metaBump = some t → s.cell = true

/-- However calls interleave, no call asks for a lock that it holds, if and only if no call of
`extend` finds `FREELIST.lists` null. -/
theorem no_self_deadlock_iff {path : List ((ι × Move Call) × State ι Lock Bool)}
    (h : Path (Step Call.prog) start path) :
    (∀ s ∈ start :: path.map Prod.snd, ¬s.SelfDeadlock) ↔
      Path.Each (fun s m => FindsLists s m.1) start path :=
  selfDeadlock_free_iff prog_safe (disciplined_new false) h

/-- One thread initialises the heap, another one allocates a large block, which sets
`FREELIST.lists`; then the first one extends the heap. -/
def growth : List (Bool × Move Call) :=
  (false, .call .init) :: List.replicate 6 (false, .run 0) ++
    (true, .call (.alloc 131072)) :: List.replicate 11 (true, .run 0) ++
    (false, .call .extend) :: List.replicate 3 (false, .run 0) ++
    (false, .run 1600) :: List.replicate 6 (false, .run 0)

theorem no_self_deadlock_growth :
    let path := play (State.move Call.prog) (start : State Bool Lock Bool) growth
    (∀ s ∈ start :: path.map Prod.snd, ¬s.SelfDeadlock) ↔
      Path.Each (fun s m => FindsLists s m.1) start path :=
  no_self_deadlock_iff (play_path (fun h => Locks.State.move_step h) _ growth)

/-- `extend` is the first call after `init`, and asks for `META_BUMP` in `get_slice`. -/
theorem extend_first_deadlocks :
    let moves : List (Unit × Move Call) := ((), .call .init) :: List.replicate 6 ((), .run 0) ++
      ((), .call .extend) :: List.replicate 3 ((), .run 0) ++ [((), .run 1600), ((), .run 0)]
    let s := Path.last start (play (State.move Call.prog) start moves)
    Run (Step Call.prog) start
      ((play (State.move Call.prog) start moves).map Prod.fst) s ∧ s.SelfDeadlock := by
  intro moves s
  have hspins : s.spins () = true := by decide +kernel
  exact ⟨(play_path (fun h => Locks.State.move_step h) _ moves).run,
    State.selfDeadlock_of_spins hspins⟩

end UniAlloc.FixedLocks
