import UniAlloc.Transition.Basic
import Mathlib.Data.Int.Basic
import Mathlib.Tactic

/-!
# The bounded multi-producer multi-consumer queue

`enqueue` and `dequeue` are embedded as programs of a thread: `act` performs
the next atomic load, compare-exchange or store of the function at the given
program point, or the plain read or write of the claimed cell between them.
Positions are `usize` counters that wrap at the 64-bit word, while a cell's
sequence is compared with a position through the wrapping `i8` difference of
the source. `Step` interleaves any number of threads.
-/

namespace UniAlloc.Mpmc

/-- `x as i8` for a `usize`. -/
def asI8 (x : Nat) : Int := Int.bmod x 256

/-- `i8::wrapping_sub`. -/
def wrappingSubI8 (x y : Int) : Int := Int.bmod (x - y) 256

/-- `usize::wrapping_add`. -/
def wrappingAdd (x y : Nat) : Nat := (x + y) % 2 ^ 64

/-- A cell: an item slot that may be uninitialised, and its sequence number. -/
structure Cell (T : Type) where
  data : Option T
  sequence : Nat

/-- The queue. Only the buffer indices below the capacity are in use. -/
structure MpMcQueue (T : Type) where
  buffer : Nat → Cell T
  dequeuePos : Nat
  enqueuePos : Nat

namespace MpMcQueue

variable {T : Type}

/-- `MpMcQueue::new`: cell `i` starts with sequence `i` and both counters are zero. -/
def new : MpMcQueue T where
  buffer i := ⟨none, i⟩
  dequeuePos := 0
  enqueuePos := 0

/-- The const assertions of `new` on the capacity. -/
def Accepts (N : Nat) : Prop :=
  0 ≤ (N : Int) - 1 - 1 ∧ 0 ≤ (N : Int) - 0 - 1 ∧ N &&& (N - 1) = 0 ∧ N < 2 ^ 64 - 1

/-- `buffer.add(pos & mask)` with `mask = N - 1`. -/
def cellIdx (N pos : Nat) : Nat := pos &&& (N - 1)

def setData (q : MpMcQueue T) (i : Nat) (item : T) : MpMcQueue T :=
  { q with buffer := Function.update q.buffer i { q.buffer i with data := some item } }

def setSequence (q : MpMcQueue T) (i seq : Nat) : MpMcQueue T :=
  { q with buffer := Function.update q.buffer i { q.buffer i with sequence := seq } }

@[simp] theorem setData_enqueuePos (q : MpMcQueue T) (i : Nat) (x : T) :
    (q.setData i x).enqueuePos = q.enqueuePos := rfl

@[simp] theorem setData_dequeuePos (q : MpMcQueue T) (i : Nat) (x : T) :
    (q.setData i x).dequeuePos = q.dequeuePos := rfl

@[simp] theorem setSequence_enqueuePos (q : MpMcQueue T) (i v : Nat) :
    (q.setSequence i v).enqueuePos = q.enqueuePos := rfl

@[simp] theorem setSequence_dequeuePos (q : MpMcQueue T) (i v : Nat) :
    (q.setSequence i v).dequeuePos = q.dequeuePos := rfl

@[simp] theorem setData_sequence (q : MpMcQueue T) (i j : Nat) (x : T) :
    ((q.setData i x).buffer j).sequence = (q.buffer j).sequence := by
  by_cases h : j = i <;> simp [setData, h]

theorem setData_data (q : MpMcQueue T) (i j : Nat) (x : T) :
    ((q.setData i x).buffer j).data = if j = i then some x else (q.buffer j).data := by
  by_cases h : j = i <;> simp [setData, h]

@[simp] theorem setSequence_data (q : MpMcQueue T) (i j v : Nat) :
    ((q.setSequence i v).buffer j).data = (q.buffer j).data := by
  by_cases h : j = i <;> simp [setSequence, h]

theorem setSequence_sequence (q : MpMcQueue T) (i j v : Nat) :
    ((q.setSequence i v).buffer j).sequence = if j = i then v else (q.buffer j).sequence := by
  by_cases h : j = i <;> simp [setSequence, h]

end MpMcQueue

/-- Program points of a thread. Each one names the access to shared memory that
comes next; the arguments are the live locals. Reloading the position in the
`dif > 0` branch is the load at the head of the function again. -/
inductive Pc (T : Type) where
  | idle
  | dequeueLoad
  | dequeueSeq (pos : Nat)
  | dequeueCas (pos : Nat)
  | dequeueRead (pos : Nat)
  | dequeueStore (pos : Nat) (data : Option T)
  | enqueueLoad (item : T)
  | enqueueSeq (item : T) (pos : Nat)
  | enqueueCas (item : T) (pos : Nat)
  | enqueueWrite (item : T) (pos : Nat)
  | enqueueStore (pos : Nat)
  deriving DecidableEq

/-- What a step shows: a call, a claimed position, an access to a cell's data,
a return value, or nothing. -/
inductive Event (T : Type) where
  | tau
  | callEnqueue (item : T)
  | callDequeue
  | enqueueClaim (pos : Nat) (item : T)
  | write (pos : Nat)
  | enqueueOk (pos : Nat)
  | enqueueErr (item : T)
  | dequeueClaim (pos : Nat)
  | read (pos : Nat)
  | dequeueSome (pos : Nat) (data : Option T)
  | dequeueNone
  deriving DecidableEq

variable {T : Type}

open MpMcQueue

/-- The next action of a thread inside `enqueue` or `dequeue`. The flag `weak`
is a spurious failure of `compare_exchange_weak`; a failed exchange returns to
the loop head with the position unchanged. -/
def act (N : Nat) (weak : Bool) (q : MpMcQueue T) :
    Pc T → MpMcQueue T × Pc T × Event T
  | .idle => (q, .idle, .tau)
  | .dequeueLoad => (q, .dequeueSeq q.dequeuePos, .tau)
  | .dequeueSeq pos =>
      let seq := (q.buffer (cellIdx N pos)).sequence
      let dif := wrappingSubI8 (asI8 seq) (asI8 (wrappingAdd pos 1))
      if dif = 0 then (q, .dequeueCas pos, .tau)
      else if dif < 0 then (q, .idle, .dequeueNone)
      else (q, .dequeueLoad, .tau)
  | .dequeueCas pos =>
      if q.dequeuePos = pos ∧ weak = false then
        ({ q with dequeuePos := wrappingAdd pos 1 }, .dequeueRead pos, .dequeueClaim pos)
      else (q, .dequeueSeq pos, .tau)
  | .dequeueRead pos =>
      (q, .dequeueStore pos (q.buffer (cellIdx N pos)).data, .read pos)
  | .dequeueStore pos data =>
      (q.setSequence (cellIdx N pos) (wrappingAdd (wrappingAdd pos (N - 1)) 1), .idle,
        .dequeueSome pos data)
  | .enqueueLoad item => (q, .enqueueSeq item q.enqueuePos, .tau)
  | .enqueueSeq item pos =>
      let seq := (q.buffer (cellIdx N pos)).sequence
      let dif := wrappingSubI8 (asI8 seq) (asI8 pos)
      if dif = 0 then (q, .enqueueCas item pos, .tau)
      else if dif < 0 then (q, .idle, .enqueueErr item)
      else (q, .enqueueLoad item, .tau)
  | .enqueueCas item pos =>
      if q.enqueuePos = pos ∧ weak = false then
        ({ q with enqueuePos := wrappingAdd pos 1 }, .enqueueWrite item pos,
          .enqueueClaim pos item)
      else (q, .enqueueSeq item pos, .tau)
  | .enqueueWrite item pos =>
      (q.setData (cellIdx N pos) item, .enqueueStore pos, .write pos)
  | .enqueueStore pos =>
      (q.setSequence (cellIdx N pos) (wrappingAdd pos 1), .idle, .enqueueOk pos)

/-- The shared queue and the program point of every thread. -/
structure State (T : Type) where
  queue : MpMcQueue T
  pc : Nat → Pc T

/-- A fresh queue that no thread has called yet. -/
def State.new : State T := ⟨MpMcQueue.new, fun _ => .idle⟩

/-- One step of the whole system: an idle thread calls, or a thread inside a
call performs its next action. Nothing restricts which thread goes next. -/
inductive Step (N : Nat) : State T → Nat × Event T → State T → Prop where
  | enqueue {s t} (item) (idle : s.pc t = .idle) :
      Step N s (t, .callEnqueue item)
        { s with pc := Function.update s.pc t (.enqueueLoad item) }
  | dequeue {s t} (idle : s.pc t = .idle) :
      Step N s (t, .callDequeue) { s with pc := Function.update s.pc t .dequeueLoad }
  | act {s t} (weak) (running : s.pc t ≠ .idle) :
      Step N s (t, (Mpmc.act N weak s.queue (s.pc t)).2.2)
        { queue := (Mpmc.act N weak s.queue (s.pc t)).1
          pc := Function.update s.pc t (Mpmc.act N weak s.queue (s.pc t)).2.1 }

/-- What a scheduler may let a thread do next. -/
inductive Move (T : Type) where
  | enqueue (item : T)
  | dequeue
  | act (weak : Bool)

/-- The step a move of thread `t` stands for, if the thread can make it. -/
def State.move (N : Nat) (s : State T) (t : Nat) : Move T → Option ((Nat × Event T) × State T)
  | .enqueue item =>
      match s.pc t with
      | .idle => some ((t, .callEnqueue item),
          { s with pc := Function.update s.pc t (.enqueueLoad item) })
      | _ => none
  | .dequeue =>
      match s.pc t with
      | .idle => some ((t, .callDequeue), { s with pc := Function.update s.pc t .dequeueLoad })
      | _ => none
  | .act weak =>
      match s.pc t with
      | .idle => none
      | pc => some ((t, (Mpmc.act N weak s.queue pc).2.2),
          { queue := (Mpmc.act N weak s.queue pc).1
            pc := Function.update s.pc t (Mpmc.act N weak s.queue pc).2.1 })

/-- The path a schedule takes. -/
def play (N : Nat) (s : State T) (moves : List (Nat × Move T)) :
    List ((Nat × Event T) × State T) :=
  Transition.play (fun s m => s.move N m.1 m.2) s moves

theorem State.move_step {N : Nat} {s : State T} {t : Nat} {m : Move T} {x}
    (h : s.move N t m = some x) : Step N s x.1 x.2 := by
  cases m with
  | enqueue item =>
      simp only [State.move] at h
      split at h
      · next idle => cases h; exact .enqueue item idle
      · cases h
  | dequeue =>
      simp only [State.move] at h
      split at h
      · next idle => cases h; exact .dequeue idle
      · cases h
  | act weak =>
      simp only [State.move] at h
      split at h
      · cases h
      · next running => cases h; exact .act weak running

/-- Playing a schedule gives a path of the system. -/
theorem play_path (N : Nat) (s : State T) (moves : List (Nat × Move T)) :
    Transition.Path (Step N) s (play N s moves) :=
  Transition.play_path (fun h => State.move_step h) s moves

/-- `dif` compares only the low bytes of the two counters. -/
theorem wrappingSubI8_asI8 (x y : Nat) :
    wrappingSubI8 (asI8 x) (asI8 y) = Int.bmod ((x : Int) - y) 256 :=
  (Int.sub_bmod _ _ _).symm

/-- The byte difference does not see the wrapping of the counters. -/
theorem dif_wrapped_left (x y : Nat) :
    wrappingSubI8 (asI8 (x % 2 ^ 64)) (asI8 y) = Int.bmod ((x : Int) - y) 256 := by
  rw [wrappingSubI8_asI8]
  simp only [Int.bmod]
  omega

theorem dif_wrapped (x y : Nat) :
    wrappingSubI8 (asI8 (x % 2 ^ 64)) (asI8 (y % 2 ^ 64)) = Int.bmod ((x : Int) - y) 256 := by
  rw [dif_wrapped_left]
  simp only [Int.bmod]
  omega

/-- Differences within a byte keep their value. -/
theorem bmod_byte {d : Int} (hlo : -128 ≤ d) (hhi : d < 128) : Int.bmod d 256 = d := by
  simp only [Int.bmod]
  omega

theorem cellIdx_two_pow (k pos : Nat) : cellIdx (2 ^ k) pos = pos % 2 ^ k := by
  simp [cellIdx, Nat.and_two_pow_sub_one_eq_mod]

/-- The buffer is never indexed out of bounds. -/
theorem cellIdx_lt (k pos : Nat) : cellIdx (2 ^ k) pos < 2 ^ k := by
  rw [cellIdx_two_pow]
  exact Nat.mod_lt _ (Nat.two_pow_pos k)

/-- The capacities `new` accepts are the powers of two from two on. -/
theorem accepts_two_pow {k : Nat} (hk : 1 ≤ k) (hk' : k < 64) : Accepts (2 ^ k) := by
  have hlow : 2 ^ 1 ≤ 2 ^ k := Nat.pow_le_pow_right (by decide) hk
  have hhigh : 2 ^ k < 2 ^ 64 - 1 :=
    lt_of_le_of_lt (Nat.pow_le_pow_right (by decide) (Nat.le_pred_of_lt hk')) (by norm_num)
  refine ⟨by omega, by omega, ?_, hhigh⟩
  rw [Nat.and_two_pow_sub_one_eq_mod, Nat.mod_self]

end UniAlloc.Mpmc
