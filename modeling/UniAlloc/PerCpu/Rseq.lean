import UniAlloc.Memory
import UniAlloc.Transition.Basic

/-!
# Per-CPU arrays under restartable sequences

`PerCpuSlabs` and `PerCpuArray` keep one slab for every CPU, and in it one array of pointers for
every size class. `push` and `pop` work on the slab of the CPU the thread runs on, without a lock:
the kernel sends a thread that loses the CPU between the first instruction and the commit back to
the start. `Step` runs the instructions of any number of threads one at a time.
-/

namespace UniAlloc.PerCpu

/-- `Header` and `FlatArrayHeader`. The offsets count words from the start of the slab. -/
structure Header where
  current : Nat
  endCopy : Nat
  begin : Nat
  «end» : Nat
  deriving DecidableEq

namespace Header

def new (current endCopy begin «end» : Nat) : Header :=
  ⟨current % 2 ^ 16, endCopy % 2 ^ 16, begin % 2 ^ 16, «end» % 2 ^ 16⟩

/-- `From<usize>`. -/
def ofWord (hdr : Nat) : Header :=
  ⟨hdr % 2 ^ 16, hdr / 2 ^ 16 % 2 ^ 16, hdr / 2 ^ 32 % 2 ^ 16, hdr / 2 ^ 48 % 2 ^ 16⟩

/-- `Into<usize>`. -/
def toWord (hdr : Header) : Nat :=
  hdr.end * 2 ^ 48 + hdr.begin * 2 ^ 32 + hdr.endCopy * 2 ^ 16 + hdr.current

def isLocked (hdr : Header) : Bool := hdr.begin = 0xffff

def lock (hdr : Header) : Header := { hdr with begin := 0xffff, «end» := 0 }

end Header

/-- The `u16` at offset `2 * k` of the word at `w`. -/
def half (mem : Mem) (w k : Nat) : Nat := mem w / 2 ^ (16 * k) % 2 ^ 16

/-- Overwrites the `u16` at offset `0` of the word at `w`. -/
def setCurrent (mem : Mem) (w v : Nat) : Mem :=
  Function.update mem w (mem w / 2 ^ 16 * 2 ^ 16 + v % 2 ^ 16)

def SHIFT : Nat := 18

/-- The slabs of the CPUs: where they start, how many classes have an array, and how many
pointers an array takes. A slab has room for all its arrays. -/
structure Slabs where
  addr : Nat
  ncpu : Nat
  classes : Nat
  cap : Nat
  aligned : addr % 8 = 0
  ncpu_le : ncpu ≤ 2 ^ 16
  bound : addr + ncpu * 2 ^ SHIFT ≤ 2 ^ 64
  fits : classes * 8 + classes * (cap * 8) ≤ 2 ^ SHIFT

namespace Slabs

variable (S : Slabs)

/-- Word `k` of the slab of a CPU. -/
def word (cpu k : Nat) : Nat := S.addr + cpu * 2 ^ SHIFT + k * 8

def header (mem : Mem) (cpu cl : Nat) : Header := Header.ofWord (mem (S.word cpu cl))

/-- The first word of the array of a class. -/
def first (cl : Nat) : Nat := S.classes + cl * S.cap

/-- The loop that locks the headers; `check` is the test for a locked header. -/
def lockAll (check : Bool) (cpu : Nat) (mem : Mem) : Option Mem :=
  (List.range S.classes).foldlM (fun mem cl =>
    if check && (S.header mem cpu cl).isLocked then none
    else some (Function.update mem (S.word cpu cl) (S.header mem cpu cl).lock.toWord)) mem

/-- One round of the second loop: the target of the prefetch, and the new header. -/
def openArray (cpu : Nat) (m : Mem × Nat) (cl : Nat) : Mem × Nat :=
  let (mem, byteUsed) := m
  let currentAddr := S.addr + cpu * 2 ^ SHIFT + byteUsed
  let mem := if S.cap ≠ 0 then Function.update mem currentAddr currentAddr else mem
  let offset := byteUsed / 8
  let hdr := Header.new offset (offset + S.cap) offset (offset + S.cap)
  (Function.update mem (S.word cpu cl) hdr.toWord, byteUsed + S.cap * 8)

/-- `init_cpu`, and `init` of `FlatArrayList`, which does not check. -/
def initCpu (check : Bool) (cpu : Nat) (mem : Mem) : Option Mem := do
  let mem ← S.lockAll check cpu mem
  let (mem, byteUsed) := (List.range S.classes).foldl (S.openArray cpu) (mem, S.classes * 8)
  if byteUsed ≤ 2 ^ SHIFT then some mem else none

/-- `init`. -/
def init (check : Bool) (mem : Mem) : Option Mem :=
  (List.range S.ncpu).foldlM (fun mem cpu => S.initCpu check cpu mem) mem

end Slabs

/-- `PerCpuSlabs` with `63` classes of `500` pointers. -/
def perCpuSlabs (addr ncpu : Nat) (aligned : addr % 8 = 0) (ncpu_le : ncpu ≤ 2 ^ 16)
    (bound : addr + ncpu * 2 ^ SHIFT ≤ 2 ^ 64) : Slabs :=
  ⟨addr, ncpu, 63, 500, aligned, ncpu_le, bound, by decide⟩

/-- `PerCpuArray`: `initial_capacity` leaves `62` pointers for each of the `64` classes. -/
def perCpuArray (addr ncpu : Nat) (aligned : addr % 8 = 0) (ncpu_le : ncpu ≤ 2 ^ 16)
    (bound : addr + ncpu * 2 ^ SHIFT ≤ 2 ^ 64) : Slabs :=
  ⟨addr, ncpu, 64, ((2 ^ SHIFT - 8 * 64) / 8 / 8) / 64 - 1, aligned, ncpu_le, bound, by decide⟩

/-- A call with its arguments. -/
inductive Op where
  | push (item cl : Nat)
  | pop (cl : Nat)
  deriving DecidableEq

/-- The instructions. `cmp k` compares `current` with the `u16` at offset `2 * k` of the header,
and the jumps lead to the commit point. -/
inductive Instr where
  | setCs
  | loadCpuId
  | shl
  | addSlabs
  | loadCurrent
  | copyBefore
  | cmp (k : Nat)
  | jae
  | jbe
  | storeItem
  | inc
  | loadNext
  | prefetch
  | loadResult
  | dec
  | storeCurrent
  deriving DecidableEq

namespace Op

def cl : Op → Nat
  | push _ cl | pop cl => cl

def item : Op → Nat
  | push item _ => item
  | pop _ => 0

/-- From the label `3` to the label `5`. The sequence that is restarted starts at index `1`. -/
def code : Op → List Instr
  | push _ _ => [.setCs, .loadCpuId, .shl, .addSlabs, .loadCurrent, .copyBefore, .cmp 3, .jae,
      .storeItem, .inc, .storeCurrent]
  | pop _ => [.setCs, .loadCpuId, .shl, .addSlabs, .loadCurrent, .copyBefore, .cmp 2, .jbe,
      .loadNext, .prefetch, .loadResult, .dec, .storeCurrent]

/-- The two sequences have different tables. -/
def sameTable : Op → Op → Bool
  | push _ _, push _ _ | pop _, pop _ => true
  | _, _ => false

end Op

/-- The registers of the sequences; `flags` are the operands compared last. -/
structure Regs where
  scratch : Nat
  before : Nat
  current : Nat
  result : Nat
  flags : Nat × Nat

/-- What a call returns: `Err` names a CPU. -/
inductive Answer where
  | pushed
  | popped (ptr : Nat)
  | err (cpu : Nat)
  deriving DecidableEq

/-- A thread: the call it is in, the index of the next instruction, the `rseq_cs` and `cpu_id`
fields of its `RSEQ_ABI`, and the CPU it runs on. -/
structure Thread where
  op : Option Op
  ip : Nat
  regs : Regs
  rseqCs : Option Op
  cpuId : Nat
  cpu : Option Nat

def Thread.new : Thread := ⟨none, 0, ⟨0, 0, 0, 0, 0, 0⟩, none, 0, none⟩

/-- `lea` wraps around. -/
def below (x : Nat) : Nat := if x = 0 then 2 ^ 64 - 1 else x - 1

/-- An instruction of a thread, on the memory and its registers. -/
def exec (S : Slabs) (op : Op) (mem : Mem) (th : Thread) : Instr → Mem × Thread
  | .setCs => (mem, { th with rseqCs := some op, ip := th.ip + 1 })
  | .loadCpuId =>
      (mem, { th with regs := { th.regs with scratch := th.cpuId % 2 ^ 16 }, ip := th.ip + 1 })
  | .shl => (mem, { th with
      regs := { th.regs with scratch := th.regs.scratch * 2 ^ SHIFT % 2 ^ 64 }, ip := th.ip + 1 })
  | .addSlabs => (mem, { th with
      regs := { th.regs with scratch := (th.regs.scratch + S.addr) % 2 ^ 64 }, ip := th.ip + 1 })
  | .loadCurrent => (mem, { th with
      regs := { th.regs with current := half mem (th.regs.scratch + op.cl * 8) 0 }
      ip := th.ip + 1 })
  | .copyBefore =>
      (mem, { th with regs := { th.regs with before := th.regs.current }, ip := th.ip + 1 })
  | .cmp k => (mem, { th with
      regs := { th.regs with
        flags := (th.regs.current % 2 ^ 16, half mem (th.regs.scratch + op.cl * 8) k) }
      ip := th.ip + 1 })
  | .jae =>
      if th.regs.flags.2 ≤ th.regs.flags.1 then (mem, { th with ip := op.code.length })
      else (mem, { th with ip := th.ip + 1 })
  | .jbe =>
      if th.regs.flags.1 ≤ th.regs.flags.2 then (mem, { th with ip := op.code.length })
      else (mem, { th with ip := th.ip + 1 })
  | .storeItem => (Function.update mem (th.regs.scratch + th.regs.current * 8) op.item,
      { th with ip := th.ip + 1 })
  | .inc => (mem, { th with
      regs := { th.regs with current := (th.regs.current + 1) % 2 ^ 64 }, ip := th.ip + 1 })
  | .loadNext => (mem, { th with
      regs := { th.regs with result := mem (th.regs.scratch + th.regs.current * 8 - 16) }
      ip := th.ip + 1 })
  | .prefetch => (mem, { th with ip := th.ip + 1 })
  | .loadResult => (mem, { th with
      regs := { th.regs with result := mem (th.regs.scratch + th.regs.current * 8 - 8) }
      ip := th.ip + 1 })
  | .dec => (mem, { th with
      regs := { th.regs with current := below th.regs.current }
      ip := th.ip + 1 })
  | .storeCurrent => (setCurrent mem (th.regs.scratch + op.cl * 8) th.regs.current,
      { th with ip := th.ip + 1 })

/-- What the call makes of the registers at the end; a null pointer panics. -/
def answer (S : Slabs) (regs : Regs) : Op → Option Answer
  | .push _ _ =>
      if regs.current = regs.before + 1 then some .pushed
      else some (.err ((regs.scratch - S.addr) / 2 ^ SHIFT))
  | .pop _ =>
      if regs.current + 1 ≠ regs.before then some (.err ((regs.scratch - S.addr) / 2 ^ SHIFT))
      else if regs.result = 0 then none
      else some (.popped regs.result)

structure State (ι : Type) where
  mem : Mem
  thread : ι → Thread

def State.new {ι : Type} (mem : Mem) : State ι := ⟨mem, fun _ => Thread.new⟩

/-- What can be seen of a step: a call, the instruction that reaches the commit point with the
CPU it runs on, and the return. -/
inductive Event (ι : Type) where
  | tau
  | call (t : ι) (op : Op)
  | commit (t : ι) (op : Op) (cpu : Nat) (ans : Option Answer)
  | ret (t : ι) (ans : Option Answer)
  deriving DecidableEq

def Event.visible {ι : Type} : Event ι → Bool
  | .tau => false
  | _ => true

/-- A call for one of the classes; null pointers are not pushed. -/
def Op.Valid (S : Slabs) (op : Op) : Prop :=
  op.cl < S.classes ∧ ∀ item cl, op = .push item cl → item ≠ 0

/-- The thread is inside the sequence that its `rseq_cs` announces. -/
def Thread.Inside (th : Thread) (op : Op) : Prop :=
  (∃ cs, th.rseqCs = some cs ∧ cs.sameTable op) ∧ 1 ≤ th.ip ∧ th.ip < op.code.length

/-- Where the kernel lets a thread go on that has lost the CPU. -/
def Thread.Resumes (th : Thread) (ip : Nat) : Prop :=
  (∃ op, th.op = some op ∧ th.Inside op) ∧ ip = 0 ∨
    (∀ op, th.op = some op → ¬th.Inside op) ∧ ip = th.ip

variable {ι : Type} [DecidableEq ι]

inductive Step (S : Slabs) : State ι → Event ι → State ι → Prop where
  | call {s t cpu op} : (s.thread t).cpu = some cpu → (s.thread t).op = none → op.Valid S →
      Step S s (.call t op)
        { s with thread := Function.update s.thread t { s.thread t with op := some op, ip := 0 } }
  | exec {s t cpu op instr mem th} : (s.thread t).cpu = some cpu → (s.thread t).op = some op →
      op.code[(s.thread t).ip]? = some instr →
      PerCpu.exec S op s.mem (s.thread t) instr = (mem, th) →
      Step S s (if th.ip = op.code.length then .commit t op cpu (answer S th.regs op)
        else .tau)
        ⟨mem, Function.update s.thread t th⟩
  | ret {s t cpu op} : (s.thread t).cpu = some cpu → (s.thread t).op = some op →
      (s.thread t).ip = op.code.length →
      Step S s (.ret t (answer S (s.thread t).regs op))
        { s with thread := Function.update s.thread t { s.thread t with op := none } }
  /-- The thread loses its CPU. -/
  | preempt {s t cpu ip} : (s.thread t).cpu = some cpu → (s.thread t).Resumes ip →
      Step S s .tau { s with
        thread := Function.update s.thread t { s.thread t with ip, rseqCs := none, cpu := none } }
  /-- The thread gets a CPU that is free. -/
  | resume {s t cpu} : (s.thread t).cpu = none → cpu < S.ncpu → (∀ u, (s.thread u).cpu ≠ some cpu) →
      Step S s .tau { s with
        thread := Function.update s.thread t { s.thread t with cpuId := cpu, cpu := some cpu } }

end UniAlloc.PerCpu
