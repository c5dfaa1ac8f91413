import UniAlloc.Radix.Shared
import UniAlloc.Ownership.Basic

/-!
# The nodes of the shared radix tree

Every mapped node has one owner: `RDPTR`, a pointer of the head node, or a thread that has not
published it yet or has lost the race. A pointer that has been published stays.
-/

namespace UniAlloc.Radix.Shared

open Transition Ownership

/-- Who may hold a node. -/
inductive Owner (ι : Type) where
  | root
  | child (i : Nat)
  | thread (t : ι)
  deriving DecidableEq

def Op.owner {ι : Type} : Op → Owner ι
  | .tree => .root
  | op => .child (index op.key)

/-- The node only the thread knows. -/
def Stage.holds : Stage → Option Nat
  | .publish p | .unmap p _ => some p
  | _ => none

variable {ι : Type} [DecidableEq ι]

namespace State

variable (s : State ι)

/-- The pointers of the tree, all null before there is one. -/
def nodes : Nat → Nat :=
  match s.mem s.root with
  | some (.head nodes) => nodes
  | _ => fun _ => 0

def vals (q : Nat) : Nat → Int :=
  match s.mem q with
  | some (.bottom vals) => vals
  | _ => fun _ => 0

/-- The pointer that a call loads, in the tree. -/
def ptr : Op → Nat
  | .tree => s.root
  | op => s.nodes (index op.key)

def place : Owner ι → Option Nat
  | .root => nonnull s.root
  | .child i => nonnull (s.nodes i)
  | .thread t => (s.call t).bind fun c => c.2.holds

/-- What a call relies on. -/
def StageOk (op : Op) : Stage → Prop
  | .load | .map => True
  | .publish p => s.mem p = some op.zeroed
  | .unmap p q => s.mem p ≠ none ∧ s.ptr op = q ∧ q ≠ 0
  | .entries q _ => op ≠ .tree ∧ s.ptr op = q ∧ q ≠ 0
  | .done (.tree p) => s.root = p ∧ p ≠ 0
  | .done _ => op ≠ .tree

/-- The writes that leave every published pointer as it is. -/
def Grows (s s' : State ι) : Prop := ∀ op, s.ptr op ≠ 0 → s'.ptr op = s.ptr op

@[simp] theorem nodes_goOn (t : ι) (op : Op) (stage : Stage) :
    (s.goOn t op stage).nodes = s.nodes :=
  rfl

@[simp] theorem vals_goOn (t : ι) (op : Op) (stage : Stage) (q : Nat) :
    (s.goOn t op stage).vals q = s.vals q := rfl

@[simp] theorem ptr_goOn (t : ι) (op o : Op) (stage : Stage) :
    (s.goOn t op stage).ptr o = s.ptr o :=
  rfl

variable {s} {s' : State ι} {p q : Nat} {op : Op}

omit [DecidableEq ι] in
theorem nodes_store (h : p ≠ s.root) (node : Option Node) : (s.store p node).nodes = s.nodes := by
  simp only [nodes, store, Function.update_of_ne h.symm]

omit [DecidableEq ι] in
theorem vals_store (h : q ≠ p) (node : Option Node) : (s.store p node).vals q = s.vals q := by
  simp only [vals, store, Function.update_of_ne h]

omit [DecidableEq ι] in
theorem ptr_store (h : p ≠ s.root) (node : Option Node) (op : Op) :
    (s.store p node).ptr op = s.ptr op := by
  cases op with
  | tree => rfl
  | _ => exact congrFun (nodes_store h node) _

omit [DecidableEq ι] in
/-- What a call relies on is its pointer and its own node. -/
theorem StageOk.congr {stage : Stage} (h : s.StageOk op stage) (grows : s.Grows s')
    (own : ∀ p, stage.holds = some p → s'.mem p = s.mem p) : s'.StageOk op stage := by
  cases stage with
  | load => trivial
  | map => trivial
  | publish p => exact (own p rfl).trans h
  | unmap p q =>
      obtain ⟨hmem, rfl, hq⟩ := h
      exact ⟨(own p rfl).symm ▸ hmem, grows op hq, hq⟩
  | entries q i =>
      obtain ⟨hop, rfl, hq⟩ := h
      exact ⟨hop, grows op hq, hq⟩
  | done ans =>
      cases ans with
      | tree p =>
          obtain ⟨rfl, hp⟩ := h
          exact ⟨grows .tree hp, hp⟩
      | _ => exact h

end State

structure Inv (s : State ι) : Prop where
  owned : Exclusive s.place {p | s.mem p ≠ none}
  null : s.mem 0 = none
  root : s.root ≠ 0 → s.mem s.root = some (.head s.nodes)
  child : ∀ {i}, s.nodes i ≠ 0 → s.mem (s.nodes i) = some (.bottom (s.vals (s.nodes i)))
  tree : ∀ {t p}, s.tree t = some p → s.root = p ∧ p ≠ 0
  valid : ∀ {t op stage}, s.call t = some (op, stage) →
    op.Valid ∧ (op = .tree ∨ s.tree t ≠ none)
  stage : ∀ {t op stage}, s.call t = some (op, stage) → s.StageOk op stage

namespace Inv

variable {s s' : State ι} {t : ι} {op : Op} {stage stage' : Stage} {p q i : Nat} {e : Event ι}

omit [DecidableEq ι] in
theorem new : Inv (State.new : State ι) where
  owned := by
    have hempty : {p | (State.new : State ι).mem p ≠ none} = ∅ :=
      Set.eq_empty_of_forall_notMem fun _ h => h rfl
    rw [hempty]
    refine Exclusive.empty.congr fun o => ?_
    cases o <;> rfl
  null := rfl
  root h := absurd rfl h
  child h := absurd rfl h
  tree h := absurd h.symm (Option.some_ne_none _)
  valid h := absurd h.symm (Option.some_ne_none _)
  stage h := absurd h.symm (Option.some_ne_none _)

omit [DecidableEq ι] in
/-- No pointer of the tree is a node that is not mapped. -/
theorem ne_of_unmapped (h : Inv s) (hp : s.mem p = none) (hne : p ≠ 0) :
    p ≠ s.root ∧ ∀ i, s.nodes i ≠ p := by
  constructor
  · rintro rfl
    exact Option.some_ne_none _ ((h.root hne).symm.trans hp)
  · rintro i rfl
    exact Option.some_ne_none _ ((h.child hne).symm.trans hp)

omit [DecidableEq ι] in
/-- No pointer of the tree is a node that a thread holds. -/
theorem ne_of_held (h : Inv s) (hp : s.place (.thread t) = some p) :
    p ≠ 0 ∧ p ≠ s.root ∧ ∀ i, s.nodes i ≠ p := by
  have hne : p ≠ 0 := by
    rintro rfl
    exact h.owned.mem hp h.null
  refine ⟨hne, ?_, fun i hi => ?_⟩
  · rintro rfl
    have hroot : s.place .root = some s.root := nonnull_eq_some.mpr ⟨rfl, hne⟩
    cases h.owned.unique hp hroot
  · have hchild : s.place (.child i) = some p := nonnull_eq_some.mpr ⟨hi, hne⟩
    cases h.owned.unique hp hchild

omit [DecidableEq ι] in
/-- A bottom node of the tree is not the head node. -/
theorem child_ne_root (h : Inv s) (hi : s.nodes i ≠ 0) : s.nodes i ≠ s.root := by
  intro heq
  have hroot : s.mem s.root = some (.head s.nodes) := h.root (heq ▸ hi)
  have hchild := h.child hi
  rw [heq, hroot] at hchild
  cases hchild

omit [DecidableEq ι] in
theorem readHead_eq (h : Inv s) (ht : s.tree t ≠ none) : s.readHead t = some s.nodes := by
  obtain ⟨p, hp⟩ := Option.ne_none_iff_exists'.mp ht
  obtain ⟨rfl, hne⟩ := h.tree hp
  simp [State.readHead, hp, h.root hne]

omit [DecidableEq ι] in
/-- The load of a call finds its pointer. -/
theorem readPtr_eq (h : Inv s) (ht : op = .tree ∨ s.tree t ≠ none) :
    s.readPtr t op = some (s.ptr op) := by
  cases op with
  | tree => rfl
  | _ =>
      obtain h' | ht := ht
      · cases h'
      · simp [State.readPtr, h.readHead_eq ht, State.ptr]

omit [DecidableEq ι] in
theorem readBottom_eq (h : Inv s) (hstage : s.StageOk op (.entries q i)) :
    s.readBottom q = some (s.vals q) := by
  obtain ⟨hop, rfl, hq⟩ := hstage
  cases op with
  | tree => exact absurd rfl hop
  | _ =>
      have hchild := h.child hq
      simp only [State.readBottom, State.ptr]
      rw [hchild]
      rfl

/-- A thread goes on. Published pointers and the nodes of the other threads stay. -/
theorem next (h : Inv s) (hcall : s.call t = some (op, stage))
    (hcall' : s'.call = Function.update s.call t (some (op, stage')))
    (htree : s'.tree = s.tree)
    (owned : Exclusive s'.place {p | s'.mem p ≠ none}) (null : s'.mem 0 = none)
    (root : s'.root ≠ 0 → s'.mem s'.root = some (.head s'.nodes))
    (child : ∀ {i}, s'.nodes i ≠ 0 → s'.mem (s'.nodes i) = some (.bottom (s'.vals (s'.nodes i))))
    (grows : s.Grows s')
    (others : ∀ u ≠ t, ∀ p, s.place (.thread u) = some p → s'.mem p = s.mem p)
    (ok : s'.StageOk op stage') : Inv s' where
  owned := owned
  null := null
  root := root
  child := child
  tree {u p} hp := by
    obtain ⟨hroot, hne⟩ := h.tree (htree ▸ hp)
    exact ⟨(grows .tree fun h0 => hne (hroot.symm.trans h0)).trans hroot, hne⟩
  valid {u o st} hu := by
    rw [hcall'] at hu
    rw [htree]
    by_cases hut : u = t
    · subst hut
      rw [Function.update_self] at hu
      cases hu
      exact h.valid hcall
    · rw [Function.update_of_ne hut] at hu
      exact h.valid hu
  stage {u o st} hu := by
    rw [hcall'] at hu
    by_cases hut : u = t
    · subst hut
      rw [Function.update_self] at hu
      cases hu
      exact ok
    · rw [Function.update_of_ne hut] at hu
      refine (h.stage hu).congr grows fun p hp => others u hut p ?_
      simp only [State.place, hu, Option.bind_some, hp]

theorem place_goOn (o : Owner ι) : (s.goOn t op stage).place o =
    if o = .thread t then stage.holds else s.place o := by
  cases o with
  | root => rfl
  | child => rfl
  | thread u =>
      by_cases hut : u = t
      · subst hut
        simp [State.place, State.goOn]
      · simp [State.place, State.goOn, hut]

/-- A thread goes on without touching the memory. -/
theorem goOn (h : Inv s) (hcall : s.call t = some (op, stage)) (hholds : stage'.holds = stage.holds)
    (ok : s.StageOk op stage') : Inv (s.goOn t op stage') := by
  have hplace : s.place (.thread t) = stage.holds := by
    simp only [State.place, hcall, Option.bind_some]
  refine h.next hcall rfl rfl (h.owned.congr fun o => ?_) h.null h.root h.child (fun _ _ => rfl)
    (fun _ _ _ _ => rfl) (ok.congr (fun _ _ => rfl) fun _ _ => rfl)
  rw [place_goOn]
  split
  · next ho => rw [ho, hplace, hholds]
  · rfl

omit [DecidableEq ι] in
theorem place_store (hp : p ≠ s.root) (node : Option Node) (o : Owner ι) :
    (s.store p node).place o = s.place o := by
  cases o with
  | child i => exact congrArg nonnull (congrFun (State.nodes_store hp node) i)
  | _ => rfl

omit [DecidableEq ι] in
theorem live_store_some (node : Node) :
    {q | (s.store p (some node)).mem q ≠ none} = insert p {q | s.mem q ≠ none} := by
  ext q
  by_cases hq : q = p <;> simp [State.store, hq]

omit [DecidableEq ι] in
theorem live_store_none :
    {q | (s.store p none).mem q ≠ none} = {q | s.mem q ≠ none} \ {p} := by
  ext q
  by_cases hq : q = p <;> simp [State.store, hq]

/-- A thread writes a node that is not in the tree. -/
theorem storeOutside (h : Inv s) (hcall : s.call t = some (op, stage)) {node : Option Node}
    (hne : p ≠ 0) (hroot : p ≠ s.root) (hnodes : ∀ i, s.nodes i ≠ p)
    (owned : Exclusive (fun o => if o = .thread t then stage'.holds else s.place o)
      {q | (s.store p node).mem q ≠ none})
    (others : ∀ u ≠ t, s.place (.thread u) ≠ some p)
    (ok : (s.store p node).StageOk op stage') : Inv ((s.store p node).goOn t op stage') := by
  refine h.next hcall rfl rfl (owned.congr fun o => ?_) ?_ (fun h0 => ?_) (fun {i} hi => ?_)
    (fun o _ => State.ptr_store hroot node o) (fun u hu q hq => ?_)
    (ok.congr (fun _ _ => rfl) fun _ _ => rfl)
  · rw [place_goOn, place_store hroot]
  · exact (Function.update_of_ne hne.symm _ _).trans h.null
  · refine (Function.update_of_ne hroot.symm _ _).trans ((h.root h0).trans ?_)
    rw [State.nodes_goOn, State.nodes_store hroot]
  · rw [State.nodes_goOn, State.nodes_store hroot] at hi ⊢
    rw [State.vals_goOn, State.vals_store (hnodes i)]
    exact (Function.update_of_ne (hnodes i) _ _).trans (h.child hi)
  · refine Function.update_of_ne ?_ _ _
    rintro rfl
    exact others u hu hq

/-- `allocate_node`. -/
theorem map (h : Inv s) (hcall : s.call t = some (op, .map)) (hne : p ≠ 0)
    (hfree : s.mem p = none) :
    Inv ((s.store p (some op.zeroed)).goOn t op (.publish p)) := by
  obtain ⟨hroot, hnodes⟩ := h.ne_of_unmapped hfree hne
  have hempty : s.place (.thread t) = none := by
    simp only [State.place, hcall, Option.bind_some, Stage.holds]
  have hnew : p ∉ {q | s.mem q ≠ none} := fun hp => hp hfree
  refine h.storeOutside hcall hne hroot hnodes ?_ (fun u _ hu => hnew (h.owned.mem hu)) ?_
  · rw [live_store_some]
    exact h.owned.take hempty hnew fun _ => rfl
  · exact Function.update_self _ _ _

/-- `deallocate_node` of the node that lost the race. -/
theorem unmap (h : Inv s) (hcall : s.call t = some (op, .unmap p q)) :
    Inv ((s.store p none).goOn t op (op.arrive q)) := by
  obtain ⟨-, rfl, hq⟩ := h.stage hcall
  have hheld : s.place (.thread t) = some p := by
    simp only [State.place, hcall, Option.bind_some, Stage.holds]
  obtain ⟨hne, hroot, hnodes⟩ := h.ne_of_held hheld
  have hholds : (op.arrive (s.ptr op)).holds = none := by
    cases op <;> rfl
  refine h.storeOutside hcall hne hroot hnodes ?_ (fun u hu hp => ?_) ?_
  · rw [live_store_none, hholds]
    exact h.owned.release hheld fun _ => rfl
  · cases h.owned.unique hp hheld
    exact hu rfl
  · have hptr := State.ptr_store hroot none op
    cases op with
    | tree => exact ⟨hptr, hq⟩
    | _ => exact ⟨Op.noConfusion, hptr, hq⟩

omit [DecidableEq ι] in
theorem nodes_null (h : Inv s) (hnull : s.root = 0) : s.nodes = fun _ => 0 := by
  simp only [State.nodes, hnull, h.null]

omit [DecidableEq ι] in
theorem nodes_publishTree (hmem : s.mem p = some (.head fun _ => 0)) :
    State.nodes { s with root := p } = fun _ => 0 := by
  simp only [State.nodes, hmem]

/-- The compare exchange that publishes a tree. -/
theorem publishTree (h : Inv s) (hcall : s.call t = some (.tree, .publish p)) (hnull : s.root = 0) :
    Inv (State.goOn { s with root := p } t .tree (.done (.tree p))) := by
  have hmem : s.mem p = some (.head fun _ => 0) := h.stage hcall
  have hheld : s.place (.thread t) = some p := by
    simp only [State.place, hcall, Option.bind_some, Stage.holds]
  have hne := (h.ne_of_held hheld).1
  have hnodes := h.nodes_null hnull
  have hnodes' := nodes_publishTree hmem
  refine h.next hcall rfl rfl (h.owned.move hheld .root ?_ fun o => ?_) h.null (fun _ => ?_)
    (fun {i} hi => ?_) (fun o ho => ?_) (fun _ _ _ _ => rfl) ⟨rfl, hne⟩
  · exact nonnull_eq_none.mpr hnull
  · rw [place_goOn]
    cases o with
    | root => simpa [State.place] using hne
    | child i =>
        show nonnull (State.nodes { s with root := p } i) = nonnull (s.nodes i)
        rw [hnodes, hnodes']
    | thread u => simp [State.place, Stage.holds]
  · rw [State.nodes_goOn, hnodes']
    exact hmem
  · rw [State.nodes_goOn, hnodes'] at hi
    exact absurd rfl hi
  · cases o with
    | tree => exact absurd hnull ho
    | _ => exact absurd (congrFun hnodes _) ho

omit [DecidableEq ι] in
theorem nodes_publish (s : State ι) (i : Nat) (p : Nat) :
    (s.store s.root (some (.head (Function.update s.nodes i p)))).nodes =
      Function.update s.nodes i p := by
  simp only [State.nodes, State.store, Function.update_self]

omit [DecidableEq ι] in
/-- The node a thread is about to publish holds zeros. -/
theorem mem_publish (h : Inv s) (hop : op ≠ .tree) (hcall : s.call t = some (op, .publish p)) :
    s.mem p = some (.bottom fun _ => 0) := by
  refine (h.stage hcall : s.mem p = some op.zeroed).trans ?_
  cases op with
  | tree => exact absurd rfl hop
  | _ => rfl

omit [DecidableEq ι] in
theorem place_of_holds (hcall : s.call t = some (op, stage)) (hholds : stage.holds = some p) :
    s.place (.thread t) = some p := by
  simp only [State.place, hcall, Option.bind_some, hholds]

/-- The compare exchange that publishes a bottom node. -/
theorem publishChild (h : Inv s) (hop : op ≠ .tree) (hcall : s.call t = some (op, .publish p))
    (hroot : s.root ≠ 0) (hnull : s.nodes (index op.key) = 0) :
    Inv ((s.store s.root (some (.head (Function.update s.nodes (index op.key) p)))).goOn t op
      (.entries p 0)) := by
  have hmem := h.mem_publish hop hcall
  have hheld : s.place (.thread t) = some p := by
    simp only [State.place, hcall, Option.bind_some, Stage.holds]
  obtain ⟨hne, hpr, -⟩ := h.ne_of_held hheld
  have hrootMem := h.root hroot
  have hvals : ∀ q ≠ s.root,
      (s.store s.root (some (.head (Function.update s.nodes (index op.key) p)))).vals q =
        s.vals q :=
    fun q hq => State.vals_store hq _
  refine h.next hcall rfl rfl ?_ ?_ (fun _ => ?_) (fun {i} hi => ?_) (fun o ho => ?_)
    (fun u hu q hq => ?_) ?_
  · have hlive :
        {q | (s.store s.root (some (.head (Function.update s.nodes (index op.key) p)))).mem q ≠
          none} = {q | s.mem q ≠ none} := by
      rw [live_store_some, Set.insert_eq_of_mem]
      exact fun h0 => Option.some_ne_none _ (hrootMem.symm.trans h0)
    show Exclusive _ {q | (s.store _ _).mem q ≠ none}
    rw [hlive]
    refine h.owned.move hheld (.child (index op.key)) (nonnull_eq_none.mpr hnull) fun o => ?_
    rw [place_goOn]
    cases o with
    | root => simp [State.place, State.store]
    | child i =>
        simp only [State.place, nodes_publish, reduceCtorEq, if_false, Owner.child.injEq]
        by_cases hi : i = index op.key
        · subst hi
          rw [Function.update_self, if_pos rfl]
          exact nonnull_eq_some.mpr ⟨rfl, hne⟩
        · rw [Function.update_of_ne hi, if_neg hi]
    | thread u => simp [State.place, State.store, Stage.holds]
  · exact (Function.update_of_ne hroot.symm _ _).trans h.null
  · rw [State.nodes_goOn, nodes_publish]
    exact Function.update_self _ _ _
  · rw [State.nodes_goOn, nodes_publish] at hi ⊢
    rw [State.vals_goOn]
    by_cases hi' : i = index op.key
    · subst hi'
      rw [Function.update_self, hvals p hpr]
      refine (Function.update_of_ne hpr _ _).trans (hmem.trans ?_)
      simp only [State.vals, hmem]
    · rw [Function.update_of_ne hi'] at hi ⊢
      have hr := h.child_ne_root hi
      rw [hvals _ hr]
      exact (Function.update_of_ne hr _ _).trans (h.child hi)
  · cases o with
    | tree => rfl
    | _ =>
        simp only [State.ptr, State.nodes_goOn, nodes_publish]
        refine Function.update_of_ne (fun heq => ?_) _ _
        exact ho ((congrArg s.nodes heq).trans hnull)
  · refine Function.update_of_ne ?_ _ _
    rintro rfl
    exact (h.ne_of_held hq).2.1 rfl
  · refine ⟨hop, ?_, hne⟩
    rw [State.ptr_goOn]
    cases op with
    | tree => exact absurd rfl hop
    | _ =>
        simp only [State.ptr, nodes_publish]
        exact Function.update_self _ _ _

omit [DecidableEq ι] in
theorem vals_write (s : State ι) (q : Nat) (vals : Nat → Int) :
    (s.store q (some (.bottom vals))).vals q = vals := by
  simp only [State.vals, State.store, Function.update_self]

/-- A thread writes an entry of a bottom node of the tree. -/
theorem write (h : Inv s) {j : Nat} (hcall : s.call t = some (op, .entries q j)) (vals : Nat → Int)
    (k : Nat) :
    Inv ((s.store q (some (.bottom vals))).goOn t op (.entries q k)) := by
  obtain ⟨hop, hptr, hq⟩ := h.stage hcall
  have hi : s.nodes (index op.key) = q := by
    cases op with
    | tree => exact absurd rfl hop
    | _ => exact hptr
  have hroot : q ≠ s.root := hi ▸ h.child_ne_root (hi ▸ hq)
  have hempty : s.place (.thread t) = none := by
    simp only [State.place, hcall, Option.bind_some, Stage.holds]
  have hmem : q ∈ {q | s.mem q ≠ none} := fun h0 =>
    Option.some_ne_none _ ((hi ▸ h.child (hi ▸ hq)).symm.trans h0)
  refine h.next hcall rfl rfl ?_ ((Function.update_of_ne hq.symm _ _).trans h.null) (fun h0 => ?_)
    (fun {i} hi' => ?_) (fun o _ => State.ptr_store hroot _ o) (fun u hu p hp => ?_)
    ⟨hop, (State.ptr_store hroot _ op).trans hptr, hq⟩
  · show Exclusive _ {p | (s.store _ _).mem p ≠ none}
    rw [live_store_some, Set.insert_eq_of_mem hmem]
    refine h.owned.congr fun o => ?_
    rw [place_goOn, place_store hroot]
    split
    · next ho => rw [ho, hempty]; rfl
    · rfl
  · refine (Function.update_of_ne hroot.symm _ _).trans ((h.root h0).trans ?_)
    rw [State.nodes_goOn, State.nodes_store hroot]
  · rw [State.nodes_goOn, State.nodes_store hroot] at hi' ⊢
    rw [State.vals_goOn]
    by_cases heq : s.nodes i = q
    · rw [heq, vals_write]
      exact Function.update_self _ _ _
    · rw [State.vals_store heq]
      exact (Function.update_of_ne heq _ _).trans (h.child hi')
  · refine Function.update_of_ne ?_ _ _
    rintro rfl
    exact (h.ne_of_held hp).2.2 _ hi

end Inv

/-- What an instruction of a call does to the tree. -/
inductive Does (s : State ι) (t : ι) (op : Op) : Stage → Event ι → State ι → Prop where
  | missed : s.ptr op = 0 → Does s t op .load (op.missed t) (s.goOn t op op.miss)
  | found : s.ptr op ≠ 0 → Does s t op .load .tau (s.goOn t op (op.arrive (s.ptr op)))
  | publishedTree {p} : op = .tree → s.root = 0 →
      Does s t op (.publish p) (.root t p) (State.goOn { s with root := p } t op (.done (.tree p)))
  | publishedChild {p} : op ≠ .tree → s.root ≠ 0 → s.nodes (index op.key) = 0 →
      Does s t op (.publish p) .tau
        ((s.store s.root (some (.head (Function.update s.nodes (index op.key) p)))).goOn t op
          (.entries p 0))
  | lost {p} : s.ptr op ≠ 0 → Does s t op (.publish p) .tau (s.goOn t op (.unmap p (s.ptr op)))
  | unmapped {p q} :
      Does s t op (.unmap p q) .tau ((s.store p none).goOn t op (op.arrive q))
  | stored {q i v n} : op.fill = some (v, n) → i < n → index (nextKey op.key) + i < 2 ^ 18 →
      Does s t op (.entries q i) (.store t (page op.key + i) v)
        ((s.store q (some (.bottom
          (Function.update (s.vals q) (index (nextKey op.key) + i) v)))).goOn t op
          (.entries q (i + 1)))
  | panicked {q i v n} : op.fill = some (v, n) → i < n → 2 ^ 18 ≤ index (nextKey op.key) + i →
      Does s t op (.entries q i) .tau (s.goOn t op (.done .panic))
  | finished {q i v n} : op.fill = some (v, n) → n ≤ i →
      Does s t op (.entries q i) .tau (s.goOn t op (.done .ok))
  | read {q i} : op.fill = none →
      Does s t op (.entries q i) (.read t (page op.key) (s.vals q (index (nextKey op.key))))
        (s.goOn t op (.done (.value (s.vals q (index (nextKey op.key))))))

namespace Inv

variable {s s' : State ι} {t : ι} {op : Op} {stage : Stage} {p q i : Nat} {e : Event ι}

omit [DecidableEq ι] in
theorem root_ne (h : Inv s) (ht : s.tree t ≠ none) : s.root ≠ 0 := by
  obtain ⟨p, hp⟩ := Option.ne_none_iff_exists'.mp ht
  obtain ⟨rfl, hne⟩ := h.tree hp
  exact hne

omit [DecidableEq ι] in
theorem writePtr_eq (h : Inv s) (hop : op ≠ .tree) (ht : s.tree t ≠ none) (p : Nat) :
    s.writePtr t op p =
      some (s.store s.root (some (.head (Function.update s.nodes (index op.key) p)))) := by
  have hhead := h.readHead_eq ht
  obtain ⟨r, hr⟩ := Option.ne_none_iff_exists'.mp ht
  obtain ⟨rfl, -⟩ := h.tree hr
  cases op with
  | tree => exact absurd rfl hop
  | _ => simp [State.writePtr, hhead, hr]

/-- No instruction reads or writes memory that is no such node. -/
theorem does (h : Inv s) (hcall : s.call t = some (op, stage)) (hmap : stage ≠ .map)
    (hdone : ∀ ans, stage ≠ .done ans) :
    ∃ e s', s.exec t op stage = some (e, s') ∧ Does s t op stage e s' := by
  have ht := (h.valid hcall).2
  have hstage := h.stage hcall
  have hread := h.readPtr_eq ht
  cases stage with
  | load =>
      by_cases hptr : s.ptr op = 0
      · exact ⟨_, _, by simp [State.exec, hread, hptr], .missed hptr⟩
      · exact ⟨_, _, by simp [State.exec, hread, hptr], .found hptr⟩
  | map => exact absurd rfl hmap
  | publish p =>
      by_cases hptr : s.ptr op = 0
      · by_cases hop : op = .tree
        · subst hop
          refine ⟨_, _, ?_, .publishedTree rfl hptr⟩
          simp [State.exec, State.readPtr, State.writePtr, show s.root = 0 from hptr, Op.published,
            Op.arrive]
        · have ht := ht.resolve_left hop
          have hnull : s.nodes (index op.key) = 0 := by
            cases op with
            | tree => exact absurd rfl hop
            | _ => exact hptr
          refine ⟨_, _, ?_, .publishedChild hop (h.root_ne ht) hnull⟩
          simp only [State.exec, hread, hptr, h.writePtr_eq hop ht]
          cases op with
          | tree => exact absurd rfl hop
          | _ => rfl
      · exact ⟨_, _, by simp [State.exec, hread, hptr], .lost hptr⟩
  | unmap p q =>
      obtain ⟨node, hnode⟩ := Option.ne_none_iff_exists'.mp hstage.1
      exact ⟨_, _, by simp [State.exec, hnode], .unmapped⟩
  | entries q i =>
      have hbottom := h.readBottom_eq hstage
      cases hfill : op.fill with
      | none => exact ⟨_, _, by simp [State.exec, hfill, hbottom], .read hfill⟩
      | some x =>
          obtain ⟨v, n⟩ := x
          by_cases hi : i < n
          · by_cases hfits : index (nextKey op.key) + i < 2 ^ 18
            · refine ⟨_, _, ?_, .stored hfill hi hfits⟩
              simp only [State.exec, hfill, hbottom, if_pos hi, if_pos hfits]
              rfl
            · refine ⟨_, _, ?_, .panicked hfill hi (not_lt.mp hfits)⟩
              simp only [State.exec, hfill, if_pos hi, if_neg hfits]
          · refine ⟨_, _, ?_, .finished hfill (not_lt.mp hi)⟩
            simp only [State.exec, hfill, if_neg hi]
  | done ans => exact absurd rfl (hdone ans)

theorem does_of_exec (h : Inv s) (hcall : s.call t = some (op, stage))
    (hexec : s.exec t op stage = some (e, s')) : Does s t op stage e s' := by
  have hmap : stage ≠ .map := by
    rintro rfl
    cases hexec
  have hdone : ∀ ans, stage ≠ .done ans := by
    rintro ans rfl
    cases hexec
  obtain ⟨e', u, heq, hdoes⟩ := h.does hcall hmap hdone
  cases hexec.symm.trans heq
  exact hdoes

theorem exec (h : Inv s) (hcall : s.call t = some (op, stage)) (hdoes : Does s t op stage e s') :
    Inv s' := by
  have hstage := h.stage hcall
  cases hdoes with
  | missed hptr =>
      refine h.goOn hcall ?_ ?_
      · cases op <;> rfl
      · cases op with
        | tree => trivial
        | insert => trivial
        | remove => exact Op.noConfusion
        | getMut => exact Op.noConfusion
  | found hptr =>
      refine h.goOn hcall ?_ ?_
      · cases op <;> rfl
      · cases op with
        | tree => exact ⟨rfl, hptr⟩
        | _ => exact ⟨Op.noConfusion, rfl, hptr⟩
  | publishedTree hop hroot =>
      subst hop
      exact h.publishTree hcall hroot
  | publishedChild hop hroot hnull => exact h.publishChild hop hcall hroot hnull
  | lost hptr =>
      refine h.goOn hcall rfl ⟨?_, rfl, hptr⟩
      rw [show s.mem _ = some op.zeroed from hstage]
      exact Option.some_ne_none _
  | unmapped => exact h.unmap hcall
  | stored => exact h.write hcall _ _
  | panicked => exact h.goOn hcall rfl hstage.1
  | finished => exact h.goOn hcall rfl hstage.1
  | read => exact h.goOn hcall rfl hstage.1

theorem nodes_leave (s : State ι) (t : ι) (ans : Answer) : (s.leave t ans).nodes = s.nodes := by
  cases ans <;> rfl

theorem vals_leave (s : State ι) (t : ι) (ans : Answer) : (s.leave t ans).vals = s.vals := by
  cases ans <;> rfl

theorem ptr_leave (s : State ι) (t : ι) (ans : Answer) : (s.leave t ans).ptr = s.ptr := by
  cases ans <;> rfl

/-- The calls of the other threads go on. -/
theorem call_of_leave {u : ι} {ans : Answer} {c : Op × Stage}
    (hu : (s.leave t ans).call u = some c) : u ≠ t ∧ s.call u = some c := by
  rw [State.call_leave] at hu
  by_cases hut : u = t
  · subst hut
    rw [Function.update_self] at hu
    cases hu
  · rw [Function.update_of_ne hut] at hu
    exact ⟨hut, hu⟩

theorem tree_of_leave (h : Inv s) {u : ι} {ans : Answer} (hcall : s.call t = some (op, .done ans))
    (hp : (s.leave t ans).tree u = some p) : s.root = p ∧ p ≠ 0 := by
  have hstage := h.stage hcall
  cases ans with
  | tree r =>
      rw [State.tree_leave] at hp
      by_cases hut : u = t
      · subst hut
        rw [Function.update_self] at hp
        cases hp
        exact hstage
      · rw [Function.update_of_ne hut] at hp
        exact h.tree hp
  | _ => exact h.tree hp

theorem tree_leave_ne {u : ι} {ans : Answer} (hu : s.tree u ≠ none) :
    (s.leave t ans).tree u ≠ none := by
  cases ans with
  | tree r =>
      rw [State.tree_leave]
      by_cases hut : u = t
      · subst hut
        rw [Function.update_self]
        exact Option.some_ne_none _
      · rwa [Function.update_of_ne hut]
  | _ => exact hu

theorem ret (h : Inv s) {ans : Answer} (hcall : s.call t = some (op, .done ans)) :
    Inv (s.leave t ans) := by
  refine ⟨?_, ?_, ?_, ?_, fun hp => ?_, fun hu => ?_, fun hu => ?_⟩
  · rw [State.mem_leave]
    refine h.owned.congr fun o => ?_
    cases o with
    | root => exact congrArg nonnull (State.root_leave _ _ _)
    | child i => exact congrArg nonnull (congrFun (nodes_leave _ _ _) i)
    | thread u =>
        by_cases hut : u = t
        · subst hut
          simp [State.place, hcall, Stage.holds]
        · simp [State.place, Function.update_of_ne hut]
  · rw [State.mem_leave]
    exact h.null
  · rw [State.root_leave, State.mem_leave, nodes_leave]
    exact h.root
  · rw [State.mem_leave, nodes_leave, vals_leave]
    exact h.child
  · rw [State.root_leave]
    exact h.tree_of_leave hcall hp
  · obtain ⟨-, hu⟩ := call_of_leave hu
    obtain ⟨hvalid, hop⟩ := h.valid hu
    exact ⟨hvalid, hop.imp_right tree_leave_ne⟩
  · obtain ⟨-, hu⟩ := call_of_leave hu
    refine (h.stage hu).congr (fun o _ => ?_) fun _ _ => ?_
    · rw [ptr_leave]
    · rw [State.mem_leave]

theorem call (h : Inv s) (hcall : s.call t = none) (hvalid : op.Valid)
    (ht : op = .tree ∨ s.tree t ≠ none) : Inv (s.goOn t op .load) where
  owned := h.owned.congr fun o => by
    rw [place_goOn]
    split
    · next ho =>
        rw [ho]
        simp [State.place, hcall, Stage.holds]
    · rfl
  null := h.null
  root := h.root
  child := h.child
  tree := h.tree
  valid {u o st} hu := by
    rw [State.call_goOn] at hu
    by_cases hut : u = t
    · subst hut
      rw [Function.update_self] at hu
      cases hu
      exact ⟨hvalid, ht⟩
    · rw [Function.update_of_ne hut] at hu
      exact h.valid hu
  stage {u o st} hu := by
    rw [State.call_goOn] at hu
    by_cases hut : u = t
    · subst hut
      rw [Function.update_self] at hu
      cases hu
      trivial
    · rw [Function.update_of_ne hut] at hu
      exact (h.stage hu).congr (fun _ _ => rfl) fun _ _ => rfl

theorem step (h : Inv s) (hstep : MappedStep s e s') : Inv s' := by
  obtain ⟨hstep, hmapped⟩ := hstep
  cases hstep with
  | call hcall hvalid ht => exact h.call hcall hvalid ht
  | map hcall hne hfree => exact h.map hcall hne hfree
  | mapFailed => exact absurd rfl hmapped
  | exec hcall hexec => exact h.exec hcall (h.does_of_exec hcall hexec)
  | ret hcall => exact h.ret hcall

theorem run {tr : List (Event ι)} (run : Run MappedStep (State.new : State ι) tr s) : Inv s :=
  run.invariant new fun _ _ _ h hstep => h.step hstep

end Inv

end UniAlloc.Radix.Shared
