import UniAlloc.Mpmc.Basic

/-!
# The lap invariant of the queue

Every cell runs through the positions congruent to its index. `Ghost.lap` is the
position a cell currently serves and `Ghost.pub` says whether its item has been
published; the stored sequence is the sum of the two, up to word wrapping. The
invariant ties these to the numbers of claimed enqueue and dequeue positions and
to the program points of all threads. Stale positions of other threads only ever
lie below the counters, which is all the invariant says about them.
-/

namespace UniAlloc.Mpmc

open MpMcQueue Transition

variable {T : Type}

def Event.enqueueClaim? : Event T → Option (Nat × T)
  | .enqueueClaim pos item => some (pos, item)
  | _ => none

def Event.dequeueClaim? : Event T → Option Nat
  | .dequeueClaim pos => some pos
  | _ => none

def Event.returned? : Event T → Option (Nat × Option T)
  | .dequeueSome pos data => some (pos, data)
  | _ => none

def Event.isCall : Event T → Bool
  | .callEnqueue _ => true
  | .callDequeue => true
  | _ => false

/-- The successful exchanges on `enqueue_pos`: the claimed position and the item. -/
def enqueueClaims (tr : List (Nat × Event T)) : List (Nat × T) :=
  tr.filterMap fun e => e.2.enqueueClaim?

/-- The successful exchanges on `dequeue_pos`. -/
def dequeueClaims (tr : List (Nat × Event T)) : List Nat :=
  tr.filterMap fun e => e.2.dequeueClaim?

/-- The values dequeues have returned, each with the position it was claimed at. -/
def returned (tr : List (Nat × Event T)) : List (Nat × Option T) :=
  tr.filterMap fun e => e.2.returned?

/-- The calls made so far. -/
def calls (tr : List (Nat × Event T)) : List (Nat × Event T) :=
  tr.filter fun e => e.2.isCall

/-- The item enqueued at position `p`. -/
def itemAt (tr : List (Nat × Event T)) (p : Nat) : Option T :=
  (enqueueClaims tr)[p]?.map Prod.snd

/-- The item of position `p` has been written to its cell. -/
def Written (tr : List (Nat × Event T)) (p : Nat) : Prop := ∃ t, (t, Event.write p) ∈ tr

/-- The item of position `p` has been read from its cell. -/
def Read (tr : List (Nat × Event T)) (p : Nat) : Prop := ∃ t, (t, Event.read p) ∈ tr

section Append

variable (tr : List (Nat × Event T)) (t p : Nat) (e : Event T)

@[simp] theorem enqueueClaims_snoc :
    enqueueClaims (tr ++ [(t, e)]) = enqueueClaims tr ++ e.enqueueClaim?.toList := by
  cases h : e.enqueueClaim? <;> simp [enqueueClaims, h]

@[simp] theorem dequeueClaims_snoc :
    dequeueClaims (tr ++ [(t, e)]) = dequeueClaims tr ++ e.dequeueClaim?.toList := by
  cases h : e.dequeueClaim? <;> simp [dequeueClaims, h]

@[simp] theorem returned_snoc :
    returned (tr ++ [(t, e)]) = returned tr ++ e.returned?.toList := by
  cases h : e.returned? <;> simp [returned, h]

@[simp] theorem written_snoc : Written (tr ++ [(t, e)]) p ↔ Written tr p ∨ e = .write p := by
  simp [Written, exists_or, eq_comm]

@[simp] theorem read_snoc : Read (tr ++ [(t, e)]) p ↔ Read tr p ∨ e = .read p := by
  simp [Read, exists_or, eq_comm]

/-- Later claims do not change the item of an earlier position. -/
theorem itemAt_snoc (hp : p < (enqueueClaims tr).length) :
    itemAt (tr ++ [(t, e)]) p = itemAt tr p := by
  simp only [itemAt, enqueueClaims_snoc, List.getElem?_append_left hp]

end Append

/-- Which position each cell serves, and whether its item is published. -/
structure Ghost where
  lap : Nat → Nat
  pub : Nat → Bool

/-- The sequence of cell `i` before word wrapping. -/
def Ghost.val (g : Ghost) (i : Nat) : Nat := g.lap i + (g.pub i).toNat

/-- The position a thread has claimed as an enqueuer and not yet published. -/
def Pc.claims : Pc T → Option Nat
  | .enqueueWrite _ pos => some pos
  | .enqueueStore pos => some pos
  | _ => none

/-- The position a thread has claimed as a dequeuer and not yet released. -/
def Pc.takes : Pc T → Option Nat
  | .dequeueRead pos => some pos
  | .dequeueStore pos _ => some pos
  | _ => none

/-- What holds of a thread at each program point. A position about to be claimed
is known to have the right cell only while it is still the current one. -/
def ThreadOk (k : Nat) (tr : List (Nat × Event T)) (q : MpMcQueue T) (g : Ghost) :
    Pc T → Prop
  | .dequeueSeq pos => pos ≤ (dequeueClaims tr).length
  | .dequeueCas pos => pos ≤ (dequeueClaims tr).length ∧
      (pos = (dequeueClaims tr).length → g.lap (pos % 2 ^ k) = pos ∧ g.pub (pos % 2 ^ k) = true)
  | .dequeueRead pos => pos < (dequeueClaims tr).length ∧
      g.lap (pos % 2 ^ k) = pos ∧ g.pub (pos % 2 ^ k) = true ∧ pos ∉ (returned tr).map Prod.fst
  | .dequeueStore pos data => pos < (dequeueClaims tr).length ∧
      g.lap (pos % 2 ^ k) = pos ∧ g.pub (pos % 2 ^ k) = true ∧
      pos ∉ (returned tr).map Prod.fst ∧ Read tr pos ∧ data = itemAt tr pos
  | .enqueueSeq _ pos => pos ≤ (enqueueClaims tr).length
  | .enqueueCas _ pos => pos ≤ (enqueueClaims tr).length ∧
      (pos = (enqueueClaims tr).length → g.lap (pos % 2 ^ k) = pos ∧ g.pub (pos % 2 ^ k) = false)
  | .enqueueWrite item pos => pos < (enqueueClaims tr).length ∧
      g.lap (pos % 2 ^ k) = pos ∧ g.pub (pos % 2 ^ k) = false ∧
      itemAt tr pos = some item ∧ ¬Written tr pos
  | .enqueueStore pos => pos < (enqueueClaims tr).length ∧
      g.lap (pos % 2 ^ k) = pos ∧ g.pub (pos % 2 ^ k) = false ∧
      (q.buffer (pos % 2 ^ k)).data = itemAt tr pos
  | _ => True

/-- What holds of cell `i`. -/
structure CellOk (k : Nat) (tr : List (Nat × Event T)) (q : MpMcQueue T) (g : Ghost)
    (i : Nat) : Prop where
  sequence : (q.buffer i).sequence = g.val i % 2 ^ 64
  lap_mod : g.lap i % 2 ^ k = i
  lap_lo : (enqueueClaims tr).length ≤ g.lap i + 2 ^ k
  lap_hi : g.lap i < (dequeueClaims tr).length + 2 ^ k
  pub : g.pub i = true →
    g.lap i < (enqueueClaims tr).length ∧ (q.buffer i).data = itemAt tr (g.lap i)
  unpub : g.pub i = false → (dequeueClaims tr).length ≤ g.lap i

/-- The invariant of a run with history `tr`. -/
structure Inv (k : Nat) (tr : List (Nat × Event T)) (s : State T) (g : Ghost) : Prop where
  enqueuePos : s.queue.enqueuePos = (enqueueClaims tr).length
  dequeuePos : s.queue.dequeuePos = (dequeueClaims tr).length
  le : (dequeueClaims tr).length ≤ (enqueueClaims tr).length
  cell : ∀ i, i < 2 ^ k → CellOk k tr s.queue g i
  thread : ∀ t, ThreadOk k tr s.queue g (s.pc t)
  claims_unique : ∀ t u p, (s.pc t).claims = some p → (s.pc u).claims = some p → t = u
  takes_unique : ∀ t u p, (s.pc t).takes = some p → (s.pc u).takes = some p → t = u
  positions : (enqueueClaims tr).map Prod.fst = List.range (enqueueClaims tr).length
  taken : dequeueClaims tr = List.range (dequeueClaims tr).length
  returned_lt : ∀ e ∈ returned tr, e.1 < (dequeueClaims tr).length ∧ e.2 = itemAt tr e.1
  returned_nodup : ((returned tr).map Prod.fst).Nodup
  written_lt : ∀ p, Written tr p → p < (enqueueClaims tr).length
  ok_lt : ∀ t p, (t, Event.enqueueOk p) ∈ tr → p < (enqueueClaims tr).length
  past_read : ∀ p, p < g.lap (p % 2 ^ k) → Read tr p

/-- No counter has wrapped. -/
structure Bounded (tr : List (Nat × Event T)) : Prop where
  enqueue : (enqueueClaims tr).length < 2 ^ 64
  dequeue : (dequeueClaims tr).length < 2 ^ 64

theorem Bounded.of_snoc {tr : List (Nat × Event T)} {a : Nat × Event T}
    (h : Bounded (tr ++ [a])) : Bounded tr := by
  obtain ⟨he, hd⟩ := h
  rw [enqueueClaims_snoc, List.length_append] at he
  rw [dequeueClaims_snoc, List.length_append] at hd
  exact ⟨by omega, by omega⟩

theorem inv_new (k : Nat) (hk : k ≤ 64) :
    Inv k [] (State.new (T := T)) ⟨fun i => i, fun _ => false⟩ := by
  constructor
  case cell =>
    intro i hi
    have hi' : i < 2 ^ 64 := hi.trans_le (Nat.pow_le_pow_right (by decide) hk)
    constructor
    case sequence => exact (Nat.mod_eq_of_lt hi').symm
    case lap_mod => exact Nat.mod_eq_of_lt hi
    case lap_hi => simpa [dequeueClaims] using hi
    all_goals simp [enqueueClaims, dequeueClaims]
  case past_read =>
    intro p hp
    exact absurd hp (Nat.mod_le _ _).not_gt
  all_goals simp [State.new, MpMcQueue.new, enqueueClaims, dequeueClaims, returned, Written,
    ThreadOk, Pc.claims, Pc.takes]

end UniAlloc.Mpmc
