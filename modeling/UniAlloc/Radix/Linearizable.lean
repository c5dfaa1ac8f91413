import UniAlloc.Radix.Nodes

/-!
# The shared radix tree is a table of entries

`Spec` is a table of `i64` entries, all zero at first, that threads read and write one entry at a
time. What is seen of a run of the shared tree is a run of `Spec`: no entry is lost when two
threads map the same node, and every call of `get_rd_tree` returns the same tree.
-/

namespace UniAlloc.Radix.Shared

open Transition Ownership

variable {ι : Type} [DecidableEq ι]

namespace Spec

/-- How far a call is: after `i` entries, or with its answer. -/
inductive Progress where
  | entries (i : Nat)
  | done (ans : Answer)

structure State (ι : Type) where
  tree : Option Nat
  entry : Nat → Int
  calls : ι → Option (Op × Progress)

def State.new : State ι := ⟨none, fun _ => 0, fun _ => none⟩

/-- What a call may return. `insert` and `remove` panic at the end of a bottom node. -/
inductive Answers (a : State ι) (op : Op) : Progress → Answer → Prop where
  | tree {i p} : op = .tree → a.tree = some p → Answers a op (.entries i) (.tree p)
  | ok {i v n} : op.fill = some (v, n) → n ≤ i → Answers a op (.entries i) .ok
  | panic {i v n} : op.fill = some (v, n) → i < n → 2 ^ 18 ≤ page op.key % 2 ^ 18 + i →
      Answers a op (.entries i) .panic
  | done {ans} : Answers a op (.done ans) ans

def State.goOn (a : State ι) (t : ι) (op : Op) (progress : Progress) : State ι :=
  { a with calls := Function.update a.calls t (some (op, progress)) }

/-- `remove` empties the entries of one bottom node. -/
def State.clear (a : State ι) (page n : Nat) : State ι :=
  { a with
    entry := fun i =>
      if page ≤ i ∧ i < page + n ∧ i / 2 ^ 18 = page / 2 ^ 18 then 0 else a.entry i }

inductive Step : State ι → Event ι → State ι → Prop where
  | call {a t op} : a.calls t = none → Step a (.call t op) (a.goOn t op (.entries 0))
  | root {a t p} : a.calls t = some (.tree, .entries 0) → a.tree = none →
      Step a (.root t p) { a with tree := some p }
  | store {a t op i v n} : a.calls t = some (op, .entries i) → op.fill = some (v, n) → i < n →
      page op.key % 2 ^ 18 + i < 2 ^ 18 →
      Step a (.store t (page op.key + i) v)
        (State.goOn { a with entry := Function.update a.entry (page op.key + i) v } t op
          (.entries (i + 1)))
  | clear {a t k n} : a.calls t = some (.remove k n, .entries 0) →
      Step a (.clear t (page k) n) ((a.clear (page k) n).goOn t (.remove k n) (.done .ok))
  | read {a t k i} : a.calls t = some (.getMut k, .entries i) →
      Step a (.read t (page k) (a.entry (page k)))
        (a.goOn t (.getMut k) (.done (.value (a.entry (page k)))))
  | ret {a t op progress ans} : a.calls t = some (op, progress) → Answers a op progress ans →
      Step a (.ret t ans) { a with calls := Function.update a.calls t none }

end Spec

theorem page_div {k : Nat} (hk : k < 2 ^ 64) : page k / 2 ^ 18 = index k := by
  rw [index_eq hk, page]
  omega

theorem index_nextKey (k : Nat) : index (nextKey k) = page k % 2 ^ 18 := by
  have hkey : nextKey k < 2 ^ 64 := Nat.mod_lt _ (by decide)
  rw [index_eq hkey, nextKey, page, Nat.shiftLeft_eq]
  omega

namespace State

variable (s : State ι)

/-- The tree in memory, as one value. -/
def radix : RadixTree where
  nodes i := if s.nodes i = 0 then none else some ⟨s.vals (s.nodes i)⟩

variable {s} {s' : State ι} {i : Nat}

omit [DecidableEq ι] in
theorem entry_null (h : s.nodes (i / 2 ^ 18) = 0) : s.radix.entry i = 0 := by
  simp only [RadixTree.entry, RadixNodeHead.child, radix, if_pos h]
  rfl

omit [DecidableEq ι] in
theorem entry_vals (h : s.nodes (i / 2 ^ 18) ≠ 0) :
    s.radix.entry i = s.vals (s.nodes (i / 2 ^ 18)) (i % 2 ^ 18) := by
  simp only [RadixTree.entry, RadixNodeHead.child, radix, if_neg h]
  rfl

omit [DecidableEq ι] in
/-- Nodes that hold zeros only may come and go. -/
theorem entry_congr
    (null : s.nodes (i / 2 ^ 18) = 0 → s'.nodes (i / 2 ^ 18) ≠ 0 →
      s'.vals (s'.nodes (i / 2 ^ 18)) (i % 2 ^ 18) = 0)
    (mapped : s.nodes (i / 2 ^ 18) ≠ 0 → s'.nodes (i / 2 ^ 18) = s.nodes (i / 2 ^ 18) ∧
      s'.vals (s.nodes (i / 2 ^ 18)) (i % 2 ^ 18) = s.vals (s.nodes (i / 2 ^ 18)) (i % 2 ^ 18)) :
    s'.radix.entry i = s.radix.entry i := by
  by_cases h : s.nodes (i / 2 ^ 18) = 0
  · rw [entry_null h]
    by_cases h' : s'.nodes (i / 2 ^ 18) = 0
    · exact entry_null h'
    · rw [entry_vals h']
      exact null h h'
  · obtain ⟨hnodes, hvals⟩ := mapped h
    rw [entry_vals h, entry_vals (hnodes ▸ h), hnodes, hvals]

end State

/-- A call and its counterpart. Up to the first entry nothing has happened. -/
def Agrees (a : Spec.State ι) (op : Op) : Stage → Spec.Progress → Prop
  | .entries _ i, progress => progress = .entries i
  | .done ans, progress => Spec.Answers a op progress ans
  | _, progress => progress = .entries 0

omit [DecidableEq ι] in
theorem Agrees.mono {a a' : Spec.State ι} {op : Op} {stage : Stage} {progress : Spec.Progress}
    (h : Agrees a op stage progress) (tree : ∀ p, a.tree = some p → a'.tree = some p) :
    Agrees a' op stage progress := by
  cases stage with
  | done ans =>
      have hans : Spec.Answers a op progress ans := h
      show Spec.Answers a' op progress ans
      cases hans with
      | tree hop hp => exact .tree hop (tree _ hp)
      | ok hfill hi => exact .ok hfill hi
      | panic hfill hi hend => exact .panic hfill hi hend
      | done => exact .done
  | _ => exact h

structure Refines (s : State ι) (a : Spec.State ι) : Prop where
  inv : Inv s
  tree : a.tree = nonnull s.root
  entry : ∀ i, a.entry i = s.radix.entry i
  idle : ∀ {t}, s.call t = none → a.calls t = none
  calls : ∀ {t op stage}, s.call t = some (op, stage) →
    ∃ progress, a.calls t = some (op, progress) ∧ Agrees a op stage progress

namespace Refines

variable {s s' : State ι} {a a' : Spec.State ι} {t : ι} {op : Op} {stage stage' : Stage}
  {progress : Spec.Progress} {e : Event ι}

omit [DecidableEq ι] in
theorem new : Refines (State.new : State ι) Spec.State.new where
  inv := .new
  tree := rfl
  entry i := by
    rw [State.entry_null rfl]
    rfl
  idle _ := rfl
  calls h := absurd h.symm (Option.some_ne_none _)

/-- A thread goes on, here and there. -/
theorem next (h : Refines s a) (inv : Inv s')
    (hcall : s'.call = Function.update s.call t (some (op, stage')))
    (hcalls : a'.calls = Function.update a.calls t (some (op, progress)))
    (tree : a'.tree = nonnull s'.root) (grows : ∀ p, a.tree = some p → a'.tree = some p)
    (entry : ∀ i, a'.entry i = s'.radix.entry i) (agrees : Agrees a' op stage' progress) :
    Refines s' a' where
  inv := inv
  tree := tree
  entry := entry
  idle {u} hu := by
    rw [hcall] at hu
    rw [hcalls]
    by_cases hut : u = t
    · subst hut
      rw [Function.update_self] at hu
      cases hu
    · rw [Function.update_of_ne hut] at hu ⊢
      exact h.idle hu
  calls {u o st} hu := by
    rw [hcall] at hu
    rw [hcalls]
    by_cases hut : u = t
    · subst hut
      rw [Function.update_self] at hu ⊢
      cases hu
      exact ⟨progress, rfl, agrees⟩
    · rw [Function.update_of_ne hut] at hu ⊢
      obtain ⟨pr, hpr, hagrees⟩ := h.calls hu
      exact ⟨pr, hpr, hagrees.mono grows⟩

/-- A step that the table does not see. -/
theorem hidden (h : Refines s a) (inv : Inv s') (hcalls : a.calls t = some (op, progress))
    (hcall : s'.call = Function.update s.call t (some (op, stage'))) (root : s'.root = s.root)
    (entry : ∀ i, s'.radix.entry i = s.radix.entry i) (agrees : Agrees a op stage' progress) :
    Refines s' a := by
  refine h.next inv hcall ?_ ?_ (fun _ hp => hp) (fun i => ?_) agrees
  · rw [Function.update_eq_self_iff.mpr hcalls.symm]
  · rw [root]
    exact h.tree
  · rw [entry]
    exact h.entry i

omit [DecidableEq ι] in
/-- Where a call goes on that has its pointer. -/
theorem agrees_arrive (h : Refines s a) {q : Nat} (hq : q ≠ 0) (hptr : s.ptr op = q) :
    Agrees a op (op.arrive q) (.entries 0) := by
  cases op with
  | tree =>
      refine Spec.Answers.tree rfl (h.tree.trans ?_)
      exact nonnull_eq_some.mpr ⟨hptr, hq⟩
  | _ => rfl

omit [DecidableEq ι] in
theorem entry_nodes_vals (hnodes : s'.nodes = s.nodes)
    (hvals : ∀ i, s.nodes i ≠ 0 → s'.vals (s.nodes i) = s.vals (s.nodes i)) (i : Nat) :
    s'.radix.entry i = s.radix.entry i :=
  State.entry_congr (fun h h' => absurd ((congrFun hnodes _).trans h) h')
    fun h => ⟨congrFun hnodes _, congrFun (hvals _ h) _⟩

/-- A step writes memory that is no node of the tree. -/
theorem entry_store {p : Nat} (hroot : p ≠ s.root) (hnodes : ∀ i, s.nodes i ≠ p)
    (node : Option Node) (i : Nat) :
    ((s.store p node).goOn t op stage').radix.entry i = s.radix.entry i := by
  refine State.entry_congr (fun h h' => ?_) fun _ => ⟨?_, ?_⟩
  · rw [State.nodes_goOn, State.nodes_store hroot] at h'
    exact absurd h h'
  · rw [State.nodes_goOn, State.nodes_store hroot]
  · rw [State.vals_goOn, State.vals_store (hnodes _)]

theorem entry_publishChild (inv : Inv s) {p : Nat} (hop : op ≠ .tree)
    (hcall : s.call t = some (op, .publish p)) (hnull : s.nodes (index op.key) = 0) (i : Nat) :
    ((s.store s.root (some (.head (Function.update s.nodes (index op.key) p)))).goOn t op
      stage').radix.entry i = s.radix.entry i := by
  have hmem := inv.mem_publish hop hcall
  obtain ⟨-, hroot, -⟩ := inv.ne_of_held (Inv.place_of_holds hcall rfl)
  refine State.entry_congr (fun h h' => ?_) fun h => ?_
  · rw [State.nodes_goOn, Inv.nodes_publish] at h' ⊢
    by_cases hi : i / 2 ^ 18 = index op.key
    · rw [hi, Function.update_self, State.vals_goOn, State.vals_store hroot]
      simp only [State.vals, hmem]
    · rw [Function.update_of_ne hi] at h'
      exact absurd h h'
  · have hi : i / 2 ^ 18 ≠ index op.key := fun hi => h (hi ▸ hnull)
    rw [State.nodes_goOn, Inv.nodes_publish, Function.update_of_ne hi, State.vals_goOn,
      State.vals_store (inv.child_ne_root h)]
    exact ⟨rfl, rfl⟩

omit [DecidableEq ι] in
/-- No two pointers of the tree are the same. -/
theorem nodes_inj (inv : Inv s) {i j : Nat} (hi : s.nodes i ≠ 0) (h : s.nodes j = s.nodes i) :
    j = i := by
  have hplace : s.place (.child i) = some (s.nodes i) := nonnull_eq_some.mpr ⟨rfl, hi⟩
  have hplace' : s.place (.child j) = some (s.nodes i) := nonnull_eq_some.mpr ⟨h, hi⟩
  cases inv.owned.unique hplace' hplace
  rfl

/-- One entry is written. -/
theorem entry_write (inv : Inv s) (hvalid : op.Valid) {q i : Nat} (v : Int)
    (hnodes : s.nodes (index op.key) = q) (hq : q ≠ 0) (hfits : index (nextKey op.key) + i < 2 ^ 18)
    (j : Nat) :
    ((s.store q (some (.bottom (Function.update (s.vals q) (index (nextKey op.key) + i) v)))).goOn t
      op stage').radix.entry j = Function.update s.radix.entry (page op.key + i) v j := by
  have hroot : q ≠ s.root := hnodes ▸ inv.child_ne_root (hnodes ▸ hq)
  have hdiv := page_div hvalid
  rw [index_nextKey] at hfits ⊢
  by_cases hj : j / 2 ^ 18 = index op.key
  · have hne : s.nodes (j / 2 ^ 18) ≠ 0 := by
      rwa [hj, hnodes]
    rw [State.entry_vals, State.nodes_goOn, State.nodes_store hroot, State.vals_goOn, hj, hnodes,
      Inv.vals_write]
    · by_cases heq : j = page op.key + i
      · have hmod : j % 2 ^ 18 = page op.key % 2 ^ 18 + i := by omega
        rw [hmod, heq, Function.update_self, Function.update_self]
      · have hmod : j % 2 ^ 18 ≠ page op.key % 2 ^ 18 + i := by omega
        rw [Function.update_of_ne hmod, Function.update_of_ne heq, State.entry_vals hne, hj, hnodes]
    · rwa [State.nodes_goOn, State.nodes_store hroot]
  · have heq : j ≠ page op.key + i := by omega
    rw [Function.update_of_ne heq]
    refine State.entry_congr (fun h h' => ?_) fun h => ?_
    · rw [State.nodes_goOn, State.nodes_store hroot] at h'
      exact absurd h h'
    · have hneq : s.nodes (j / 2 ^ 18) ≠ q := fun h' =>
        hj (nodes_inj inv (hnodes ▸ hq) (h'.trans hnodes.symm))
      rw [State.nodes_goOn, State.nodes_store hroot, State.vals_goOn, State.vals_store hneq]
      exact ⟨rfl, rfl⟩

/-- What answers a step: at most one step of the table. -/
def Answered (e : Event ι) (s' : State ι) (a : Spec.State ι) : Prop :=
  if e.visible then ∃ a', Spec.Step a e a' ∧ Refines s' a' else Refines s' a

/-- An instruction is answered by at most one step of the table. -/
theorem exec (h : Refines s a) (hcall : s.call t = some (op, stage))
    (hdoes : Does s t op stage e s') : Answered e s' a := by
  have inv' := h.inv.exec hcall hdoes
  obtain ⟨hvalid, -⟩ := h.inv.valid hcall
  have hstage := h.inv.stage hcall
  obtain ⟨progress, hcalls, hagrees⟩ := h.calls hcall
  cases hdoes with
  | missed hptr =>
      obtain rfl : progress = .entries 0 := hagrees
      have hnull : op ≠ .tree → s.nodes (page op.key / 2 ^ 18) = 0 := fun hop => by
        rw [page_div hvalid]
        cases op with
        | tree => exact absurd rfl hop
        | _ => exact hptr
      cases op with
      | tree => exact h.hidden inv' hcalls rfl rfl (fun _ => rfl) rfl
      | insert k v n => exact h.hidden inv' hcalls rfl rfl (fun _ => rfl) rfl
      | remove k n =>
          refine ⟨_, .clear hcalls, h.next inv' rfl rfl h.tree (fun _ hp => hp) (fun i => ?_) .done⟩
          show (if _ then _ else _) = s.radix.entry i
          split
          · next hi =>
              refine (State.entry_null ?_).symm
              rw [hi.2.2]
              exact hnull Op.noConfusion
          · exact h.entry i
      | getMut k =>
          have hzero : a.entry (page k) = 0 :=
            (h.entry _).trans (State.entry_null (hnull Op.noConfusion))
          refine ⟨a.goOn t (.getMut k) (.done (.value 0)), ?_,
            h.next inv' rfl rfl h.tree (fun _ hp => hp) h.entry .done⟩
          have hread := Spec.Step.read hcalls
          rwa [hzero] at hread
  | found hptr =>
      obtain rfl : progress = .entries 0 := hagrees
      exact h.hidden inv' hcalls rfl rfl (fun _ => rfl) (h.agrees_arrive hptr rfl)
  | publishedTree hop hroot =>
      subst hop
      obtain rfl : progress = .entries 0 := hagrees
      have htree : a.tree = none := h.tree.trans (nonnull_eq_none.mpr hroot)
      have hheld := Inv.place_of_holds hcall rfl
      refine ⟨_, .root hcalls htree, h.next inv' rfl ?_ ?_ (fun p hp => ?_) (fun i => ?_)
        (@Spec.Answers.tree _ _ _ 0 _ rfl rfl)⟩
      · exact (Function.update_eq_self_iff.mpr hcalls.symm).symm
      · exact (nonnull_eq_some.mpr ⟨rfl, (h.inv.ne_of_held hheld).1⟩).symm
      · rw [htree] at hp
        cases hp
      · rw [h.entry, State.entry_null (congrFun (h.inv.nodes_null hroot) _)]
        refine (State.entry_null ?_).symm
        exact congrFun (Inv.nodes_publishTree hstage) _
  | publishedChild hop hroot hnull =>
      obtain rfl : progress = .entries 0 := hagrees
      exact h.hidden inv' hcalls rfl rfl (entry_publishChild h.inv hop hcall hnull) rfl
  | lost hptr =>
      obtain rfl : progress = .entries 0 := hagrees
      exact h.hidden inv' hcalls rfl rfl (fun _ => rfl) rfl
  | unmapped =>
      obtain rfl : progress = .entries 0 := hagrees
      obtain ⟨-, hroot, hnodes⟩ := h.inv.ne_of_held (Inv.place_of_holds hcall rfl)
      exact h.hidden inv' hcalls rfl rfl (entry_store hroot hnodes none)
        (h.agrees_arrive hstage.2.2 hstage.2.1)
  | @stored q i v n hfill hi hfits =>
      obtain rfl : progress = .entries i := hagrees
      obtain ⟨hop, hptr, hq⟩ := hstage
      have hnodes : s.nodes (index op.key) = q := by
        cases op with
        | tree => exact absurd rfl hop
        | _ => exact hptr
      have hroot : q ≠ s.root := hnodes ▸ h.inv.child_ne_root (hnodes ▸ hq)
      have hfits' := hfits
      rw [index_nextKey] at hfits'
      refine ⟨_, .store hcalls hfill hi hfits', h.next inv' rfl rfl h.tree (fun _ hp => hp)
        (fun j => ?_) rfl⟩
      rw [entry_write h.inv hvalid v hnodes hq hfits]
      show Function.update a.entry _ v j = _
      rw [funext h.entry]
  | @panicked q i v n hfill hi hend =>
      obtain rfl : progress = .entries i := hagrees
      rw [index_nextKey] at hend
      exact h.hidden inv' hcalls rfl rfl (fun _ => rfl) (Spec.Answers.panic hfill hi hend)
  | @finished q i v n hfill hi =>
      obtain rfl : progress = .entries i := hagrees
      exact h.hidden inv' hcalls rfl rfl (fun _ => rfl) (Spec.Answers.ok hfill hi)
  | @read q i hfill =>
      obtain rfl : progress = .entries i := hagrees
      obtain ⟨hop, hptr, hq⟩ := hstage
      cases op with
      | tree => exact absurd rfl hop
      | insert => cases hfill
      | remove => cases hfill
      | getMut k =>
          have hdiv : page k / 2 ^ 18 = index k := page_div hvalid
          have hvals : a.entry (page k) = s.vals q (index (nextKey k)) := by
            rw [h.entry, State.entry_vals, hdiv, index_nextKey]
            · exact congrFun (congrArg s.vals hptr) _
            · rw [hdiv]
              exact fun h0 => hq (hptr.symm.trans h0)
          refine ⟨a.goOn t (.getMut k) (.done (.value (s.vals q (index (nextKey k))))), ?_,
            h.next inv' rfl rfl h.tree (fun _ hp => hp) h.entry .done⟩
          have hread := Spec.Step.read hcalls
          rwa [hvals] at hread

theorem ret (h : Refines s a) {ans : Answer} (hcall : s.call t = some (op, .done ans)) :
    Answered (.ret t ans) (s.leave t ans) a := by
  obtain ⟨progress, hcalls, hagrees⟩ := h.calls hcall
  refine ⟨_, .ret hcalls hagrees, h.inv.ret hcall, ?_, fun i => ?_, fun {u} hu => ?_,
    fun {u o st} hu => ?_⟩
  · rw [State.root_leave]
    exact h.tree
  · rw [entry_nodes_vals (Inv.nodes_leave _ _ _) fun i _ => congrFun (Inv.vals_leave _ _ _) _]
    exact h.entry i
  · show Function.update a.calls t none u = none
    by_cases hut : u = t
    · subst hut
      exact Function.update_self _ _ _
    · rw [State.call_leave, Function.update_of_ne hut] at hu
      rw [Function.update_of_ne hut]
      exact h.idle hu
  · obtain ⟨hut, hu⟩ := Inv.call_of_leave hu
    obtain ⟨pr, hpr, hagrees⟩ := h.calls hu
    exact ⟨pr, (Function.update_of_ne hut _ _).trans hpr, hagrees.mono fun _ hp => hp⟩

theorem step (h : Refines s a) (hstep : MappedStep s e s') : Answered e s' a := by
  obtain ⟨hstep, hmapped⟩ := hstep
  cases hstep with
  | call hcall hvalid ht =>
      refine ⟨_, .call (h.idle hcall), ?_⟩
      exact h.next (h.inv.call hcall hvalid ht) rfl rfl h.tree (fun _ hp => hp) h.entry rfl
  | map hcall hne hfree =>
      obtain ⟨progress, hcalls, hagrees⟩ := h.calls hcall
      obtain rfl : progress = .entries 0 := hagrees
      obtain ⟨hroot, hnodes⟩ := h.inv.ne_of_unmapped hfree hne
      exact h.hidden (h.inv.map hcall hne hfree) hcalls rfl rfl (entry_store hroot hnodes _) rfl
  | mapFailed => exact absurd rfl hmapped
  | exec hcall hexec => exact h.exec hcall (h.inv.does_of_exec hcall hexec)
  | ret hcall => exact h.ret hcall

end Refines

variable {s : State ι} {tr : List (Event ι)}

theorem refines_run (run : Run MappedStep (State.new : State ι) tr s) :
    ∃ a, Run Spec.Step Spec.State.new (tr.filter Event.visible) a ∧ Refines s a := by
  refine run.simulate Refines.new (fun h hstep hhidden => ?_) fun h hstep hshown => ?_
  · have hans := h.step hstep
    rwa [Refines.Answered, hhidden] at hans
  · have hans := h.step hstep
    rwa [Refines.Answered, hshown] at hans

/-- As long as nodes can be mapped threads that share the tree read and write its entries as if they
were a table: nothing that is written is lost in a race for a node, and all threads use the same
tree. -/
theorem entries_linearizable (run : Run MappedStep (State.new : State ι) tr s) :
    ∃ a, Run Spec.Step Spec.State.new (tr.filter Event.visible) a ∧
      a.tree = nonnull s.root ∧ ∀ i, a.entry i = s.radix.entry i := by
  obtain ⟨a, hspec, h⟩ := refines_run run
  exact ⟨a, hspec, h.tree, h.entry⟩

/-- As long as nodes can be mapped every mapped node is reached from exactly one place, no place
points to unmapped memory, and no call touches memory that is not the node it takes it for. -/
theorem nodes_owned (run : Run MappedStep (State.new : State ι) tr s) :
    (∀ p, s.mem p ≠ none → ∃! o, s.place o = some p) ∧
      (∀ o p, s.place o = some p → s.mem p ≠ none) ∧
      ∀ t op stage, s.call t = some (op, stage) → stage ≠ .map → (∀ ans, stage ≠ .done ans) →
        (s.exec t op stage).isSome := by
  have h := Inv.run run
  refine ⟨fun p hp => h.owned.existsUnique hp, fun o p ho => h.owned.mem ho,
    fun t op stage hcall hmap hdone => ?_⟩
  obtain ⟨e, s', hexec, -⟩ := h.does hcall hmap hdone
  exact Option.isSome_iff_exists.mpr ⟨_, hexec⟩

/-- What is seen when two threads ask for the tree at once, and one looks up what the other has
inserted. -/
def lookedUp : List (Event Bool) :=
  [.call true .tree, .call false .tree, .root true 1, .ret true (.tree 1), .ret false (.tree 1),
    .call true (.insert 0x10000000 7 1), .store true 1 7, .ret true .ok,
    .call false (.getMut 0x10000000), .read false 1 7, .ret false (.value 7),
    .call true (.remove 0x10000000 1), .store true 1 0, .ret true .ok]

/-- Both threads map a tree, and the second has to give its own back. -/
theorem lookedUp_run : ∃ tr, ∃ s : State Bool, Run MappedStep State.new tr s ∧
    tr.filter Event.visible = lookedUp := by
  have r : Run MappedStep (State.new : State Bool) [] State.new := .nil
  have r := r.snoc ⟨@Step.call _ _ _ true .tree rfl (by decide) (.inl rfl), nofun⟩
  have r := r.snoc ⟨@Step.call _ _ _ false .tree rfl (by decide) (.inl rfl), nofun⟩
  have r := r.snoc ⟨@Step.exec _ _ _ true .tree .load _ _ rfl rfl, nofun⟩
  have r := r.snoc ⟨@Step.exec _ _ _ false .tree .load _ _ rfl rfl, nofun⟩
  have r := r.snoc ⟨@Step.map _ _ _ true .tree 1 rfl (by decide) rfl, nofun⟩
  have r := r.snoc ⟨@Step.map _ _ _ false .tree 2 rfl (by decide) rfl, nofun⟩
  have r := r.snoc ⟨@Step.exec _ _ _ true .tree (.publish 1) _ _ rfl rfl, nofun⟩
  have r := r.snoc ⟨@Step.exec _ _ _ false .tree (.publish 2) _ _ rfl rfl, nofun⟩
  have r := r.snoc ⟨@Step.ret _ _ _ true .tree (.tree 1) rfl, nofun⟩
  have r := r.snoc ⟨@Step.exec _ _ _ false .tree (.unmap 2 1) _ _ rfl rfl, nofun⟩
  have r := r.snoc ⟨@Step.ret _ _ _ false .tree (.tree 1) rfl, nofun⟩
  -- a bottom node is mapped for the key
  have r := r.snoc ⟨@Step.call _ _ _ true (.insert 0x10000000 7 1) rfl (by decide)
    (.inr (Option.some_ne_none 1)), nofun⟩
  have r := r.snoc ⟨@Step.exec _ _ _ true (.insert 0x10000000 7 1) .load _ _ rfl rfl, nofun⟩
  have r := r.snoc ⟨@Step.map _ _ _ true (.insert 0x10000000 7 1) 3 rfl (by decide) rfl, nofun⟩
  have r := r.snoc ⟨@Step.exec _ _ _ true (.insert 0x10000000 7 1) (.publish 3) _ _ rfl rfl,
    nofun⟩
  have r := r.snoc ⟨@Step.exec _ _ _ true (.insert 0x10000000 7 1) (.entries 3 0) _ _ rfl rfl,
    nofun⟩
  have r := r.snoc ⟨@Step.exec _ _ _ true (.insert 0x10000000 7 1) (.entries 3 1) _ _ rfl rfl,
    nofun⟩
  have r := r.snoc ⟨@Step.ret _ _ _ true (.insert 0x10000000 7 1) .ok rfl, nofun⟩
  have r := r.snoc ⟨@Step.call _ _ _ false (.getMut 0x10000000) rfl (by decide)
    (.inr (Option.some_ne_none 1)), nofun⟩
  have r := r.snoc ⟨@Step.exec _ _ _ false (.getMut 0x10000000) .load _ _ rfl rfl, nofun⟩
  have r := r.snoc ⟨@Step.exec _ _ _ false (.getMut 0x10000000) (.entries 3 0) _ _ rfl rfl, nofun⟩
  have r := r.snoc ⟨@Step.ret _ _ _ false (.getMut 0x10000000) (.value 7) rfl, nofun⟩
  have r := r.snoc ⟨@Step.call _ _ _ true (.remove 0x10000000 1) rfl (by decide)
    (.inr (Option.some_ne_none 1)), nofun⟩
  have r := r.snoc ⟨@Step.exec _ _ _ true (.remove 0x10000000 1) .load _ _ rfl rfl, nofun⟩
  have r := r.snoc ⟨@Step.exec _ _ _ true (.remove 0x10000000 1) (.entries 3 0) _ _ rfl rfl, nofun⟩
  have r := r.snoc ⟨@Step.exec _ _ _ true (.remove 0x10000000 1) (.entries 3 1) _ _ rfl rfl, nofun⟩
  have r := r.snoc ⟨@Step.ret _ _ _ true (.remove 0x10000000 1) .ok rfl, nofun⟩
  exact ⟨_, _, r, rfl⟩

theorem entries_linearizable_lookedUp :
    ∃ tr, ∃ s : State Bool, Run MappedStep State.new tr s ∧ tr.filter Event.visible = lookedUp ∧
      ∃ a, Run Spec.Step Spec.State.new (tr.filter Event.visible) a ∧
        a.tree = nonnull s.root ∧ ∀ i, a.entry i = s.radix.entry i := by
  obtain ⟨tr, s, run, htr⟩ := lookedUp_run
  exact ⟨tr, s, run, htr, entries_linearizable run⟩

theorem nodes_owned_lookedUp :
    ∃ tr, ∃ s : State Bool, Run MappedStep State.new tr s ∧ tr.filter Event.visible = lookedUp ∧
      (∀ p, s.mem p ≠ none → ∃! o, s.place o = some p) ∧
        (∀ o p, s.place o = some p → s.mem p ≠ none) ∧
        ∀ t op stage, s.call t = some (op, stage) → stage ≠ .map → (∀ ans, stage ≠ .done ans) →
          (s.exec t op stage).isSome := by
  obtain ⟨tr, s, run, htr⟩ := lookedUp_run
  exact ⟨tr, s, run, htr, nodes_owned run⟩

end UniAlloc.Radix.Shared
