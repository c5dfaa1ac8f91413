import UniAlloc.PerCpu.Refinement
import UniAlloc.Ledger.Basic

/-!
# No pointer is lost

What has been pushed has been popped or is in one of the arrays.
-/

namespace UniAlloc.PerCpu

open Transition

variable {ι : Type} [DecidableEq ι]

/-- The pointer that a commit point puts into an array. -/
def Event.pushed : Event ι → Multiset Nat
  | .commit _ (.push item _) _ (some .pushed) => {item}
  | _ => 0

/-- The pointer that a commit point takes out of an array. -/
def Event.popped : Event ι → Multiset Nat
  | .commit _ _ _ (some (.popped ptr)) => {ptr}
  | _ => 0

/-- All pointers in the arrays of all CPUs. -/
def stored (ncpu classes : Nat) (stack : Nat → Nat → List Nat) : Multiset Nat :=
  ∑ cpu ∈ Finset.range ncpu, ∑ cl ∈ Finset.range classes, ↑(stack cpu cl)

namespace Spec

variable {ncpu classes cap cpu cl : Nat} {a b : State ι} {tr : List (Event ι)}

omit [DecidableEq ι] in
theorem stored_setStack (hcpu : cpu < ncpu) (hcl : cl < classes) (l : List Nat) :
    stored ncpu classes (a.setStack cpu cl l).stack + ↑(a.stack cpu cl) =
      stored ncpu classes a.stack + ↑l := by
  have hrow := Ledger.sum_update (Finset.range classes)
    (fun _ (l : List Nat) => (↑l : Multiset Nat)) (a.stack cpu) (Finset.mem_range.mpr hcl) l
  have hall := Ledger.sum_update (Finset.range ncpu)
    (fun _ (row : Nat → List Nat) => ∑ cl ∈ Finset.range classes, (↑(row cl) : Multiset Nat))
    a.stack (Finset.mem_range.mpr hcpu) (Function.update (a.stack cpu) cl l)
  simp only [stored, State.setStack]
  refine add_right_cancel (b := ∑ cl ∈ Finset.range classes, (↑(a.stack cpu cl) : Multiset Nat)) ?_
  calc _ = (∑ j ∈ Finset.range ncpu, ∑ cl_1 ∈ Finset.range classes,
          (↑(Function.update a.stack cpu (Function.update (a.stack cpu) cl l) j cl_1) :
            Multiset Nat)) + (∑ cl ∈ Finset.range classes, ↑(a.stack cpu cl)) +
          ↑(a.stack cpu cl) := by
        ac_rfl
    _ = _ := by
        rw [hall, add_assoc, hrow]
        ac_rfl

omit [DecidableEq ι] in
/-- What a call does to its stack shows in its answer. -/
theorem apply_balance {op : Op} {t : ι} {l stack : List Nat} {ans : Answer}
    (happly : op.apply cap cpu l = (stack, ans)) :
    (↑stack : Multiset Nat) + (Event.commit t op cpu (some ans)).popped =
      ↑l + (Event.commit t op cpu (some ans)).pushed := by
  cases op with
  | push item cl =>
      simp only [Op.apply] at happly
      split at happly
      · cases happly
        simp only [Event.popped, Event.pushed, add_zero]
        rw [add_comm, Multiset.singleton_add, Multiset.cons_coe]
      · cases happly
        rfl
  | pop cl =>
      cases l with
      | nil =>
          cases happly
          rfl
      | cons ptr rest =>
          cases happly
          simp only [Event.popped, Event.pushed, add_zero]
          rw [add_comm, Multiset.singleton_add, Multiset.cons_coe]

/-- A step keeps the balance. -/
theorem step_balance {e : Event ι} (hstep : Step ncpu classes cap a e b) :
    stored ncpu classes b.stack + e.popped = stored ncpu classes a.stack + e.pushed := by
  cases hstep with
  | call => rfl
  | ret => rfl
  | @commit t op cpu stack ans hcalls hcpu hcl happly =>
      have hset := stored_setStack (a := a) hcpu hcl stack
      have hbalance := apply_balance (t := t) happly
      refine add_right_cancel (b := (↑(a.stack cpu op.cl) : Multiset Nat)) ?_
      calc stored ncpu classes (a.setStack cpu op.cl stack).stack +
              (Event.commit t op cpu (some ans)).popped + ↑(a.stack cpu op.cl)
          = stored ncpu classes (a.setStack cpu op.cl stack).stack + ↑(a.stack cpu op.cl) +
              (Event.commit t op cpu (some ans)).popped := by ac_rfl
        _ = stored ncpu classes a.stack +
              (↑stack + (Event.commit t op cpu (some ans)).popped) := by rw [hset, add_assoc]
        _ = _ := by
            rw [hbalance]
            ac_rfl

theorem run_balance (run : Run (Step ncpu classes cap) (State.new : State ι) tr a) :
    stored ncpu classes a.stack + (tr.map Event.popped).sum = (tr.map Event.pushed).sum := by
  refine run.history_invariant
    (I := fun tr a => stored ncpu classes a.stack + (tr.map Event.popped).sum =
      (tr.map Event.pushed).sum) ?_ fun tr a e b ih hstep => ?_
  · simp [stored, State.new]
  · simp only [List.map_append, List.map_cons, List.map_nil, List.sum_append, List.sum_cons,
      List.sum_nil, add_zero]
    rw [← ih, add_comm _ e.popped, ← add_assoc, step_balance hstep]
    ac_rfl

end Spec

omit [DecidableEq ι] in
/-- Hidden steps move no pointer. -/
theorem sum_filter_visible {f : Event ι → Multiset Nat} (hf : f .tau = 0) (tr : List (Event ι)) :
    ((tr.filter Event.visible).map f).sum = (tr.map f).sum := by
  induction tr with
  | nil => rfl
  | cons e tr ih =>
      cases e with
      | tau => simp [Event.visible, hf, ih]
      | call => rw [List.filter_cons_of_pos rfl, List.map_cons, List.sum_cons, ih]; rfl
      | commit => rw [List.filter_cons_of_pos rfl, List.map_cons, List.sum_cons, ih]; rfl
      | ret => rw [List.filter_cons_of_pos rfl, List.map_cons, List.sum_cons, ih]; rfl

variable {S : Slabs} {check : Bool} {mem mem₀ : Mem} {s : State ι} {tr : List (Event ι)}

/-- Wherever the kernel interrupts the threads, every pointer that was pushed was popped once or is
in one of the arrays. -/
theorem pointers_conserved (hinit : S.init check mem = some mem₀)
    (run : Run (Step S) (State.new mem₀) tr s) :
    (tr.map Event.pushed).sum =
      (tr.map Event.popped).sum + stored S.ncpu S.classes (S.contents s.mem) := by
  obtain ⟨a, hspec, h⟩ := refines_run hinit run
  have hbalance := Spec.run_balance hspec
  rw [sum_filter_visible rfl, sum_filter_visible rfl] at hbalance
  rw [← hbalance, add_comm]
  refine congrArg (_ + ·) (Finset.sum_congr rfl fun cpu hcpu =>
    Finset.sum_congr rfl fun cl hcl => ?_)
  rw [h.stack cpu (Finset.mem_range.mp hcpu) cl (Finset.mem_range.mp hcl)]

/-- The slabs of two CPUs. -/
def twoCpus : Slabs := perCpuSlabs 0x10000 2 (by decide) (by decide) (by decide)

/-- What is seen when a pointer goes from one thread to another. -/
def handover : List (Event Bool) :=
  [.call true (.push 7 5), .commit true (.push 7 5) 0 (some .pushed), .ret true (some .pushed),
    .call false (.pop 5), .commit false (.pop 5) 0 (some (.popped 7)),
    .ret false (some (.popped 7))]

/-- A thread that is interrupted in `push` on one CPU starts again on the other, and the next
thread there pops the pointer. -/
theorem handover_run : ∃ mem₀ tr, ∃ s : State Bool, twoCpus.init true (fun _ => 0) = some mem₀ ∧
    Run (Step twoCpus) (State.new mem₀) tr s ∧ tr.filter Event.visible = handover := by
  obtain ⟨mem₀, hinit⟩ := Slabs.init_eq_some (S := twoCpus) (fun _ => 0)
    fun (_ : true = true) _ _ _ _ => by simp [Slabs.header, Header.ofWord, Header.isLocked]
  have hfree : ∀ cpu : Nat, (none : Option Nat) ≠ some cpu := fun _ => (Option.some_ne_none _).symm
  have r₀ : Run (Step twoCpus) (State.new mem₀ : State Bool) [] (State.new mem₀) := .nil
  have r₁ := r₀.snoc (@Step.resume _ _ _ _ true 1 rfl (by decide) fun _ => hfree 1)
  have r₂ := r₁.snoc (@Step.call _ _ _ _ true 1 (.push 7 5) rfl rfl
    ⟨by decide, fun _ _ h => by cases h; decide⟩)
  have r₃ := r₂.snoc (@Step.exec _ _ _ _ true 1 (.push 7 5) .setCs _ _ rfl rfl rfl rfl)
  have r₄ := r₃.snoc (@Step.preempt _ _ _ _ true 1 0 rfl
    (.inl ⟨⟨.push 7 5, rfl, ⟨.push 7 5, rfl, rfl⟩, le_rfl,
      (by decide : 1 < (Op.push 7 5).code.length)⟩, rfl⟩))
  have r₅ := r₄.snoc (@Step.resume _ _ _ _ true 0 rfl (by decide) fun u => by
    cases u <;> exact hfree 0)
  obtain ⟨a, -, h⟩ := refines_run hinit r₅
  have hempty : a.stack 0 5 = [] :=
    (h.stack 0 (by decide) 5 (by decide)).trans ((Slabs.init_spec hinit (by decide)).slabOk.2 5
      (by decide))
  obtain ⟨tr, s, b, run, htr, h', hstack, hcpu, hop, hsame⟩ := h.finishes (t := true)
    (show _ = some 0 from rfl) (show _ = some (Op.push 7 5) from rfl) rfl
    (by rw [Op.cl, hempty])
  have r₆ := r₅.trans run
  have hother := hsame false Bool.false_ne_true
  have hcpu' : (s.thread false).cpu = none := congrArg Thread.cpu hother
  have hop' : (s.thread false).op = none := congrArg Thread.op hother
  have resumes : (s.thread true).Resumes (s.thread true).ip :=
    .inr ⟨fun op h => absurd (hop.symm.trans h) (Option.some_ne_none _).symm, rfl⟩
  have hgone : ∀ u, (Function.update s.thread true { s.thread true with
      ip := (s.thread true).ip, rseqCs := none, cpu := none } u).cpu ≠ some 0 := by
    rintro ⟨⟩
    · exact fun h => hfree 0 (hcpu'.symm.trans h)
    · exact hfree 0
  have r₇ := r₆.snoc (.preempt hcpu resumes)
  have r₈ := r₇.snoc (@Step.resume _ _ _ _ false 0 hcpu' (by decide) hgone)
  have valid : (Op.pop 5).Valid twoCpus := ⟨by decide, fun _ _ h => Op.noConfusion h⟩
  have r₉ := r₈.snoc (@Step.call _ _ _ _ false 0 (.pop 5) rfl hop' valid)
  have h₇ := h'.preempt resumes
  have h₈ := h₇.resume (t := false) hcpu' (by decide) hgone
  obtain ⟨c, hspec, h''⟩ := h₈.call (t := false) hop' valid
  have hseven : c.stack 0 5 = [7] := by
    cases hspec with
    | call => exact congrFun (congrFun hstack 0) 5
  obtain ⟨tr', s', -, run', htr', -⟩ := h''.finishes (t := false)
    (show _ = some 0 from rfl) (show _ = some (Op.pop 5) from rfl) rfl
    (by rw [Op.cl, hseven])
  refine ⟨mem₀, _, s', hinit, r₉.trans run', ?_⟩
  simp only [List.filter_append, htr, htr']
  rfl

theorem arrays_linearizable_handover :
    ∃ mem₀ tr, ∃ s : State Bool, Run (Step twoCpus) (State.new mem₀) tr s ∧
      tr.filter Event.visible = handover ∧
      ∃ a, Run (Spec.Step twoCpus.ncpu twoCpus.classes twoCpus.cap) Spec.State.new
          (tr.filter Event.visible) a ∧
        ∀ cpu < twoCpus.ncpu, ∀ cl < twoCpus.classes,
          twoCpus.contents s.mem cpu cl = a.stack cpu cl := by
  obtain ⟨mem₀, tr, s, hinit, run, htr⟩ := handover_run
  exact ⟨mem₀, tr, s, run, htr, arrays_linearizable hinit run⟩

theorem pointers_conserved_handover :
    ∃ mem₀ tr, ∃ s : State Bool, Run (Step twoCpus) (State.new mem₀) tr s ∧
      tr.filter Event.visible = handover ∧
      (tr.map Event.pushed).sum = (tr.map Event.popped).sum +
        stored twoCpus.ncpu twoCpus.classes (twoCpus.contents s.mem) := by
  obtain ⟨mem₀, tr, s, hinit, run, htr⟩ := handover_run
  exact ⟨mem₀, tr, s, run, htr, pointers_conserved hinit run⟩

end UniAlloc.PerCpu
