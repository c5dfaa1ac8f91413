import UniAlloc.Locks.Ordered
import UniAlloc.Locks.FixedHeap
import UniAlloc.Cache.Large

/-!
# The locks of the default build

Every call of `RustAllocator`, and the exit of a thread, is a program over the slab mutexes,
`PG_BUMP`, the list locks of `FREELIST`, `BUMP` and `META_BUMP`. `get_slice`, `remove_one`,
`remove_spec_one` and `insert_one` are the same as with a fixed heap; nodes of the radix tree,
regions of `PG_BUMP` and large runs come from the system and need no lock. Slab mutexes are taken
before `PG_BUMP`, and both before all other locks.
-/

namespace UniAlloc.DefaultLocks

open Locks Slab Transition
open FixedLocks (Lock Prog either getSlice removeOne removeSpecOne insertOne originSize bumpAlloc)

def BACKEND_MAX_PAGE : Nat := 128

/-- The `while` loop of `alloc`, for the last `fuel` lists. -/
def parentLoop (origin : Nat) (k : Prog) : Nat → Prog
  | 0 => getSlice (bumpAlloc k)
  | fuel + 1 =>
      let parent := BACKEND_MAX_PAGE - (fuel + 1)
      getSlice <| removeOne parent fun found =>
        if found then insertOne (parent - origin - 1) k else parentLoop origin k fuel

/-- `FreeList::alloc`. -/
def freeListAlloc (size : Nat) (k : Prog) : Prog :=
  let origin := originSize size
  getSlice <|
    if origin < BACKEND_MAX_PAGE then
      removeOne origin fun found =>
        if found then k else parentLoop origin k (BACKEND_MAX_PAGE - (origin + 1))
    else bumpAlloc k

/-- A flag `pflag` or `nflag`: the number of pages of a free run, or nothing. -/
def flag (k : Nat → Prog) : Prog := .choose fun c => k (c % (BACKEND_MAX_PAGE + 1))

/-- One of the two checks of `free`. `k` gets the number of pages that are joined. -/
def checkNeighbour (k : Nat → Prog) : Prog :=
  flag fun pages =>
    if 0 < pages then removeSpecOne (pages - 1) fun found => k (if found then pages else 0)
    else k 0

/-- `FreeList::free`, which unmaps a run that is too long for the lists. -/
def freeListFree (size : Nat) (k : Prog) : Prog :=
  checkNeighbour fun before => checkNeighbour fun after =>
    let finalIdx := originSize size + before + after
    getSlice (if finalIdx < BACKEND_MAX_PAGE then insertOne finalIdx k else k)

/-- `BuddySystemAllocator::alloc`. -/
def backendAlloc (size : Nat) (k : Prog) : Prog :=
  if ISIZE_MAX < size then k else freeListAlloc size k

/-- The size of the pages of a class. -/
def pageSize (idx : Nat) : Nat := PAGE_SIZE * tcSizeClass.getNumPagesByIdx idx

/-- `get_uninit`. The guard of `PG_BUMP` lives as long as the `if let`. -/
def getUninit (idx : Nat) (k : Prog) : Prog :=
  either (backendAlloc (pageSize idx) k)
    (.lock .pgBump <| backendAlloc (pageSize idx) <| .unlock .pgBump k)

/-- `allocate_batch_from_slab`: a page of a ring, or a new one. -/
def allocateBatch (idx : Nat) (k : Prog) : Prog :=
  .lock (.slab idx) <|
    either (.unlock (.slab idx) k) (getUninit idx (.unlock (.slab idx) k))

/-- The `while` loop of `deallocate_batch`: chunks of `n` pages, some of which go back to the
page backend. -/
def chainLoop (idx : Nat) (k : Prog) : Nat → Prog
  | 0 => k
  | n + 1 => either (freeListFree (pageSize idx) (chainLoop idx k n)) (chainLoop idx k n)

/-- `deallocate_batch_to_slab`. -/
def deallocateBatch (idx : Nat) (k : Prog) : Prog :=
  .lock (.slab idx) <| .choose fun pages => chainLoop idx (.unlock (.slab idx) k) pages

/-- `size_of::<ZoneAllocator>()`. -/
def ZONE_SIZE : Nat := 6144

/-- `GLOBAL_ZONE`: the pointer is there, or a new zone is published. The zone that loses goes to
the page backend. -/
def globalZone (k : Prog) : Prog :=
  either k <| .lock .metaBump <| .unlock .metaBump <| either k (freeListFree ZONE_SIZE k)

/-- `GlobalTcache`: the pointer is there, or `Box::new_in` takes a block. -/
def globalTcache (k : Prog) : Prog := either k <| .lock .metaBump <| .unlock .metaBump k

/-- `RustAllocator::alloc`. A block of the thread cache needs no lock. -/
def alloc (size : Nat) (k : Prog) : Prog :=
  globalTcache <|
    match tcSizeClass.getSizeClass size with
    | .base idx => if idx = 0 then k else either k (globalZone (allocateBatch idx k))
    | .large size => globalZone (backendAlloc size k)

/-- `RustAllocator::dealloc`. -/
def dealloc (size : Nat) (k : Prog) : Prog :=
  globalTcache <|
    match tcSizeClass.getSizeClass size with
    | .base _ => k
    | .large size => globalZone (freeListFree size k)

/-- `RustAllocator::realloc`. -/
def realloc (size newSize : Nat) : Prog :=
  if (tcSizeClass.getSizeClass size).index = (tcSizeClass.getSizeClass newSize).index then .done
  else alloc newSize (either .done (dealloc size .done))

/-- `cleanup_cache_unchecked`, for the last `fuel` classes. -/
def cleanupLoop (k : Prog) : Nat → Prog
  | 0 => k
  | fuel + 1 =>
      let idx := TcSizeClass.TOTAL_SIZE_CLASS - (fuel + 1)
      either (cleanupLoop k fuel) (globalZone (deallocateBatch idx (cleanupLoop k fuel)))

/-- `free_thread_cache`. -/
def freeThreadCache : Prog :=
  cleanupLoop (.lock .metaBump <| .unlock .metaBump .done) (TcSizeClass.TOTAL_SIZE_CLASS - 1)

inductive Call where
  | alloc (size : Nat)
  | dealloc (size : Nat)
  | realloc (size newSize : Nat)
  /-- The exit of a thread. -/
  | exit

def Call.prog : Call → Prog
  | .alloc size => DefaultLocks.alloc size .done
  | .dealloc size => DefaultLocks.dealloc size .done
  | .realloc size newSize => DefaultLocks.realloc size newSize
  | .exit => freeThreadCache

def rank : Lock → Nat
  | .slab _ => 0
  | .pgBump => 1
  | .bump | .metaBump | .list _ => 2

theorem rank_le (l : Lock) : rank l ≤ 2 := by
  cases l <;> simp [rank]

/-- Slab mutexes and `PG_BUMP` only. -/
def Outer (held : Set Lock) : Prop := ∀ l ∈ held, rank l < 2

section

variable {held : Set Lock} {k : Prog} {size idx : Nat}

theorem either_ordered {yes no : Prog} (hyes : Ordered rank held yes) (hno : Ordered rank held no) :
    Ordered rank held (either yes no) := by
  intro c
  show Ordered rank held (if c = 1 then yes else no)
  split
  · exact hyes
  · exact hno

theorem getSlice_ordered (outer : Outer held) (hk : Ordered rank held k) :
    Ordered rank held (getSlice k) := by
  intro lists
  cases lists with
  | true => exact hk
  | false =>
      refine Ordered.section outer fun won => ?_
      cases won with
      | true => exact hk
      | false => exact Ordered.section outer hk

/-- A list is locked, and unlocked on both ways. -/
theorem listSection_ordered (outer : Outer held) {k : Bool → Prog}
    (hk : ∀ found, Ordered rank held (k found)) :
    Ordered rank held (.lock (.list idx) <|
      either (.unlock (.list idx) (k true)) (.unlock (.list idx) (k false))) := by
  have hsection : ∀ found, Ordered rank held (.lock (.list idx) (.unlock (.list idx) (k found))) :=
    fun found => Ordered.section outer (hk found)
  exact ⟨outer, either_ordered (hsection true).2 (hsection false).2⟩

theorem removeOne_ordered (outer : Outer held) {k : Bool → Prog}
    (hk : ∀ found, Ordered rank held (k found)) : Ordered rank held (removeOne idx k) :=
  getSlice_ordered outer (listSection_ordered outer hk)

theorem removeSpecOne_ordered (outer : Outer held) {k : Bool → Prog}
    (hk : ∀ found, Ordered rank held (k found)) : Ordered rank held (removeSpecOne idx k) :=
  getSlice_ordered outer (listSection_ordered outer hk)

theorem insertOne_ordered (outer : Outer held) (hk : Ordered rank held k) :
    Ordered rank held (insertOne idx k) :=
  getSlice_ordered outer (Ordered.section outer hk)

theorem bumpAlloc_ordered (outer : Outer held) (hk : Ordered rank held k) :
    Ordered rank held (bumpAlloc k) := Ordered.section outer hk

theorem parentLoop_ordered (outer : Outer held) (hk : Ordered rank held k) (origin fuel : Nat) :
    Ordered rank held (parentLoop origin k fuel) := by
  induction fuel with
  | zero => exact getSlice_ordered outer (bumpAlloc_ordered outer hk)
  | succ fuel ih =>
      refine getSlice_ordered outer (removeOne_ordered outer fun found => ?_)
      split
      · exact insertOne_ordered outer hk
      · exact ih

theorem freeListAlloc_ordered (outer : Outer held) (hk : Ordered rank held k) :
    Ordered rank held (freeListAlloc size k) := by
  simp only [freeListAlloc]
  generalize originSize size = origin
  refine getSlice_ordered outer ?_
  split
  · refine removeOne_ordered outer fun found => ?_
    split
    · exact hk
    · exact parentLoop_ordered outer hk _ _
  · exact bumpAlloc_ordered outer hk

theorem checkNeighbour_ordered (outer : Outer held) {k : Nat → Prog}
    (hk : ∀ pages, Ordered rank held (k pages)) : Ordered rank held (checkNeighbour k) := by
  intro c
  beta_reduce
  split
  · exact removeSpecOne_ordered outer fun found => hk _
  · exact hk 0

theorem freeListFree_ordered (outer : Outer held) (hk : Ordered rank held k) :
    Ordered rank held (freeListFree size k) := by
  simp only [freeListFree]
  generalize originSize size = origin
  refine checkNeighbour_ordered outer fun before => checkNeighbour_ordered outer fun after => ?_
  refine getSlice_ordered outer ?_
  split
  · exact insertOne_ordered outer hk
  · exact hk

theorem backendAlloc_ordered (outer : Outer held) (hk : Ordered rank held k) :
    Ordered rank held (backendAlloc size k) := by
  rw [backendAlloc]
  split
  · exact hk
  · exact freeListAlloc_ordered outer hk

/-- Under a slab mutex. -/
theorem outer_slab : Outer (insert (.slab idx) ∅) := by
  simp [Outer, rank]

theorem getUninit_ordered (hk : Ordered rank (insert (.slab idx) ∅) k) :
    Ordered rank (insert (.slab idx) ∅) (getUninit idx k) := by
  have hpg : ∀ l ∈ (insert (.slab idx) ∅ : Set Lock), rank l < rank .pgBump := by
    simp [rank]
  have outer : Outer (insert .pgBump (insert (.slab idx) ∅)) := by
    simp [Outer, rank]
  refine either_ordered (backendAlloc_ordered outer_slab hk) ⟨hpg, backendAlloc_ordered outer ?_⟩
  exact (Ordered.section hpg hk).2

theorem lock_slab (hk : Ordered rank ∅ k) :
    Ordered rank (insert (.slab idx) ∅) (.unlock (.slab idx) k) :=
  (Ordered.section (fun _ h => absurd h (Set.notMem_empty _)) hk).2

theorem allocateBatch_ordered (hk : Ordered rank ∅ k) : Ordered rank ∅ (allocateBatch idx k) :=
  ⟨fun _ h => absurd h (Set.notMem_empty _),
    either_ordered (lock_slab hk) (getUninit_ordered (lock_slab hk))⟩

theorem chainLoop_ordered (hk : Ordered rank (insert (.slab idx) ∅) k) (n : Nat) :
    Ordered rank (insert (.slab idx) ∅) (chainLoop idx k n) := by
  induction n with
  | zero => exact hk
  | succ n ih => exact either_ordered (freeListFree_ordered outer_slab ih) ih

theorem deallocateBatch_ordered (hk : Ordered rank ∅ k) : Ordered rank ∅ (deallocateBatch idx k) :=
  ⟨fun _ h => absurd h (Set.notMem_empty _), chainLoop_ordered (lock_slab hk)⟩

theorem outer_empty : Outer ∅ := fun _ h => absurd h (Set.notMem_empty _)

theorem globalZone_ordered (hk : Ordered rank ∅ k) : Ordered rank ∅ (globalZone k) :=
  either_ordered hk <| Ordered.section outer_empty <|
    either_ordered hk (freeListFree_ordered outer_empty hk)

theorem globalTcache_ordered (hk : Ordered rank ∅ k) : Ordered rank ∅ (globalTcache k) :=
  either_ordered hk (Ordered.section outer_empty hk)

theorem alloc_ordered (hk : Ordered rank ∅ k) : Ordered rank ∅ (alloc size k) := by
  refine globalTcache_ordered ?_
  split
  · split
    · exact hk
    · exact either_ordered hk (globalZone_ordered (allocateBatch_ordered hk))
  · exact globalZone_ordered (backendAlloc_ordered outer_empty hk)

theorem dealloc_ordered (hk : Ordered rank ∅ k) : Ordered rank ∅ (dealloc size k) := by
  refine globalTcache_ordered ?_
  split
  · exact hk
  · exact globalZone_ordered (freeListFree_ordered outer_empty hk)

theorem cleanupLoop_ordered (hk : Ordered rank ∅ k) (fuel : Nat) :
    Ordered rank ∅ (cleanupLoop k fuel) := by
  induction fuel with
  | zero => exact hk
  | succ fuel ih => exact either_ordered ih (globalZone_ordered (deallocateBatch_ordered ih))

/-- Every call takes its locks in order. -/
theorem prog_ordered (c : Call) : Ordered rank ∅ c.prog := by
  have hdone : Ordered rank ∅ (.done : Prog) := rfl
  cases c with
  | alloc size => exact alloc_ordered hdone
  | dealloc size => exact dealloc_ordered hdone
  | realloc size newSize =>
      simp only [Call.prog, realloc]
      split
      · exact hdone
      · exact alloc_ordered (either_ordered hdone (dealloc_ordered hdone))
  | exit =>
      have hend : Ordered rank ∅ (.lock .metaBump (.unlock .metaBump .done) : Prog) :=
        Ordered.section outer_empty hdone
      exact cleanupLoop_ordered hend _

end

variable {ι : Type} [DecidableEq ι] {s : State ι Lock Bool} {tr : List (ι × Move Call)}

/-- However the calls of any number of threads interleave, they do not block each other: nobody
asks for a lock that it holds; as long as a call is not finished, one of the calls can go on; and
without new calls they all finish, whoever goes on. -/
theorem calls_do_not_block (run : Run (Step Call.prog) (State.new false) tr s) :
    ¬s.SelfDeadlock ∧ ((∃ t, s.code t ≠ .done) → ∃ s', Runs s s') ∧
      Acc (fun s' s => Runs s s') s :=
  progress rank_le prog_ordered run

/-- Two threads need a batch of the same class; the second one waits for the slab mutex. -/
def contended : List (Bool × Move Call) :=
  [false, true].flatMap fun t =>
    [(t, .call (.alloc 64)), (t, .run 1), (t, .run 0), (t, .run 1), (t, .run 0)]

theorem calls_do_not_block_contended :
    let s := Path.last (State.new false) (play (State.move Call.prog) (State.new false) contended)
    (s.run true 0).isNone ∧ (s.run false 0).isSome ∧ ¬s.SelfDeadlock ∧
      ((∃ t, s.code t ≠ .done) → ∃ s', Runs s s') ∧ Acc (fun s' s => Runs s s') s := by
  intro s
  exact ⟨by decide +kernel, by decide +kernel,
    calls_do_not_block (play_path (fun h => Locks.State.move_step h) _ contended).run⟩

end UniAlloc.DefaultLocks
