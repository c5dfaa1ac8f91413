import UniAlloc.Memory
import UniAlloc.Radix.Basic
import UniAlloc.Transition.Basic

/-!
# The radix tree shared by threads

`get_rd_tree` and `insert` map a node when they find a null pointer, try to publish it with one
compare exchange, and unmap it again when another thread was faster. Every load, store, compare
exchange and mapping is a step of its own, and the steps of the threads interleave. Reading or
writing memory that is no such node is not possible: it would be a fault. Whether `mmap` has
succeeded is not checked; `MappedStep` are the steps in which it does.
-/

namespace UniAlloc.Radix.Shared

/-- A mapped node. Pointers are addresses, `0` is null. -/
inductive Node where
  | head (nodes : Nat → Nat)
  | bottom (nodes : Nat → Int)

inductive Op where
  /-- `get_rd_tree`. -/
  | tree
  | insert (k : Nat) (v : Int) (n : Nat)
  | remove (k n : Nat)
  | getMut (k : Nat)

inductive Answer where
  | tree (p : Nat)
  | ok
  | value (v : Int)
  | panic

/-- Where a call is. -/
inductive Stage where
  /-- Before the load of the pointer: `RDPTR`, or the one in the head node. -/
  | load
  /-- The pointer was null: `allocate_node`. -/
  | map
  /-- The compare exchange of the new node `p`. -/
  | publish (p : Nat)
  /-- It failed and found `q`: `deallocate_node` of `p`. -/
  | unmap (p q : Nat)
  /-- In the bottom node `q`, after `i` entries. -/
  | entries (q i : Nat)
  | done (ans : Answer)

/-- The page of a key. -/
def page (k : Nat) : Nat := k / 2 ^ 28

namespace Op

def key : Op → Nat
  | .tree => 0
  | .insert k _ _ | .remove k _ | .getMut k => k

/-- What a call writes, and to how many entries. -/
def fill : Op → Option (Int × Nat)
  | .insert _ v n => some (v, n)
  | .remove _ n => some (0, n)
  | .tree | .getMut _ => none

/-- A freshly mapped node, zero filled. -/
def zeroed : Op → Node
  | .tree => .head fun _ => 0
  | _ => .bottom fun _ => 0

/-- Where a call goes on that has the pointer. -/
def arrive (q : Nat) : Op → Stage
  | .tree => .done (.tree q)
  | _ => .entries q 0

/-- Where a call goes on that found null. -/
def miss : Op → Stage
  | .tree | .insert .. => .map
  | .remove .. => .done .ok
  | .getMut _ => .done (.value 0)

end Op

/-- What can be seen of a step. `root` is the compare exchange of `RDPTR`; `clear` and `read` are
also the load by which `remove` and `get_mut` find no node. -/
inductive Event (ι : Type) where
  | tau
  | mapFailed
  | call (t : ι) (op : Op)
  | root (t : ι) (p : Nat)
  | store (t : ι) (page : Nat) (v : Int)
  | clear (t : ι) (page n : Nat)
  | read (t : ι) (page : Nat) (v : Int)
  | ret (t : ι) (ans : Answer)

def Event.visible {ι : Type} : Event ι → Bool
  | .tau | .mapFailed => false
  | _ => true

namespace Op

variable {ι : Type}

def missed (t : ι) : Op → Event ι
  | .tree | .insert .. => .tau
  | .remove k n => .clear t (page k) n
  | .getMut k => .read t (page k) 0

def published (t : ι) (p : Nat) : Op → Event ι
  | .tree => .root t p
  | _ => .tau

end Op

structure State (ι : Type) where
  /-- `RDPTR`. -/
  root : Nat
  mem : Nat → Option Node
  /-- What `get_rd_tree` returned to the thread. -/
  tree : ι → Option Nat
  call : ι → Option (Op × Stage)

namespace State

variable {ι : Type}

def new : State ι := ⟨0, fun _ => none, fun _ => none, fun _ => none⟩

variable [DecidableEq ι] (s : State ι) (t : ι)

def goOn (op : Op) (stage : Stage) : State ι :=
  { s with call := Function.update s.call t (some (op, stage)) }

theorem call_goOn (op : Op) (stage : Stage) :
    (s.goOn t op stage).call = Function.update s.call t (some (op, stage)) := rfl

/-- The call returns. The thread keeps the tree it asked for. -/
def leave : Answer → State ι
  | .tree p =>
      { s with
        call := Function.update s.call t none
        tree := Function.update s.tree t (some p) }
  | _ => { s with call := Function.update s.call t none }

theorem tree_leave (p : Nat) :
    (s.leave t (.tree p)).tree = Function.update s.tree t (some p) := rfl

@[simp] theorem call_leave (ans : Answer) :
    (s.leave t ans).call = Function.update s.call t none := by
  cases ans <;> rfl

@[simp] theorem mem_leave (ans : Answer) : (s.leave t ans).mem = s.mem := by
  cases ans <;> rfl

@[simp] theorem root_leave (ans : Answer) : (s.leave t ans).root = s.root := by
  cases ans <;> rfl

def store (p : Nat) (node : Option Node) : State ι :=
  { s with mem := Function.update s.mem p node }

/-- The pointers of the head node the thread uses. -/
def readHead : Option (Nat → Nat) := do
  match ← s.mem (← s.tree t) with
  | .head nodes => some nodes
  | .bottom _ => none

/-- The entries of a bottom node. -/
def readBottom (q : Nat) : Option (Nat → Int) := do
  match ← s.mem q with
  | .head _ => none
  | .bottom nodes => some nodes

/-- The pointer that a call loads. -/
def readPtr (op : Op) : Option Nat :=
  match op with
  | .tree => some s.root
  | op => do some ((← s.readHead t) (index op.key))

def writePtr (op : Op) (p : Nat) : Option (State ι) :=
  match op with
  | .tree => some { s with root := p }
  | op => do
      let nodes ← s.readHead t
      some (s.store (← s.tree t) (some (.head (Function.update nodes (index op.key) p))))

/-- The next instruction of a call, unless it maps a node. -/
def exec (op : Op) : Stage → Option (Event ι × State ι)
  | .load => do
      let q ← s.readPtr t op
      if q = 0 then some (op.missed t, s.goOn t op op.miss)
      else some (.tau, s.goOn t op (op.arrive q))
  | .publish p => do
      let q ← s.readPtr t op
      if q = 0 then some (op.published t p, (← s.writePtr t op p).goOn t op (op.arrive p))
      else some (.tau, s.goOn t op (.unmap p q))
  | .unmap p q => do
      let _ ← s.mem p
      some (.tau, (s.store p none).goOn t op (op.arrive q))
  | .entries q i =>
      match op.fill with
      | some (v, n) =>
          if i < n then
            if index (nextKey op.key) + i < 2 ^ 18 then do
              let nodes ← s.readBottom q
              let nodes := Function.update nodes (index (nextKey op.key) + i) v
              some (.store t (page op.key + i) v,
                (s.store q (some (.bottom nodes))).goOn t op (.entries q (i + 1)))
            else some (.tau, s.goOn t op (.done .panic))
          else some (.tau, s.goOn t op (.done .ok))
      | none => do
          let v := (← s.readBottom q) (index (nextKey op.key))
          some (.read t (page op.key) v, s.goOn t op (.done (.value v)))
  | .map | .done _ => none

end State

/-- Keys are of type `usize`. -/
def Op.Valid (op : Op) : Prop := op.key < 2 ^ 64

instance (op : Op) : Decidable op.Valid := inferInstanceAs (Decidable (op.key < 2 ^ 64))

variable {ι : Type} [DecidableEq ι]

inductive Step : State ι → Event ι → State ι → Prop where
  /-- `insert`, `remove` and `get_mut` are methods of the tree that `get_rd_tree` returned. -/
  | call {s t op} : s.call t = none → op.Valid → (op = .tree ∨ s.tree t ≠ none) →
      Step s (.call t op) (s.goOn t op .load)
  | map {s t op p} : s.call t = some (op, .map) → p ≠ 0 → s.mem p = none →
      Step s .tau ((s.store p (some op.zeroed)).goOn t op (.publish p))
  /-- `mmap` fails, and `MAP_FAILED` is published like a node. -/
  | mapFailed {s t op} : s.call t = some (op, .map) →
      Step s .mapFailed (s.goOn t op (.publish USIZE_MAX))
  | exec {s t op stage e s'} : s.call t = some (op, stage) → s.exec t op stage = some (e, s') →
      Step s e s'
  | ret {s t op ans} : s.call t = some (op, .done ans) → Step s (.ret t ans) (s.leave t ans)

/-- The steps as long as nodes can be mapped. -/
def MappedStep (s : State ι) (e : Event ι) (s' : State ι) : Prop := Step s e s' ∧ e ≠ .mapFailed

/-- If not, memory that is not mapped becomes the tree. -/
theorem failed_mapping_published {s : State ι} {t : ι} (hcall : s.call t = some (.tree, .map))
    (hroot : s.root = 0) : ∃ s', Transition.Run Step s [.mapFailed, .root t USIZE_MAX] s' ∧
      s'.root = USIZE_MAX ∧ s'.mem = s.mem := by
  have hfail : Step s .mapFailed (s.goOn t .tree (.publish USIZE_MAX)) := .mapFailed hcall
  have hcall' : (s.goOn t .tree (.publish USIZE_MAX)).call t = some (.tree, .publish USIZE_MAX) :=
    Function.update_self ..
  have hexec : (s.goOn t .tree (.publish USIZE_MAX)).exec t .tree (.publish USIZE_MAX) =
      some (.root t USIZE_MAX, _) := if_pos hroot
  exact ⟨_, (Transition.Run.single hfail).snoc (.exec hcall' hexec), rfl, rfl⟩

end UniAlloc.Radix.Shared
