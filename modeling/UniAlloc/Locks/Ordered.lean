import Mathlib.Logic.Hydra
import UniAlloc.Locks.Basic

/-!
# Locks taken in order

`Ordered rank held code` says that a thread that holds the locks `held` and goes on with `code`
asks only for locks of higher rank than all that it holds. Threads that do so never wait for each
other in a circle: as long as one of them has something to do, one of them can do it, and after
finitely many steps all of them are done. Nothing here fixes the locks, the cell or the threads.
-/

namespace Locks

open Transition Relation

variable {ι L S C : Type} [DecidableEq ι] [DecidableEq L] {rank : L → Nat} {N : Nat}

/-- The thread asks for locks in the order of their ranks. -/
def Ordered (rank : L → Nat) : Set L → Code L S → Prop
  | held, .done => held = ∅
  | held, .lock l rest => (∀ k ∈ held, rank k < rank l) ∧ Ordered rank (insert l held) rest
  | held, .unlock l rest => l ∈ held ∧ Ordered rank (held \ {l}) rest
  | held, .access _ rest => ∀ answer, Ordered rank held (rest answer)
  | held, .choose rest => ∀ choice, Ordered rank held (rest choice)

def AllOrdered (rank : L → Nat) (s : State ι L S) : Prop :=
  ∀ t, Ordered rank (s.held t) (s.code t)

omit [DecidableEq L] in
/-- A lock that is taken in order is not held already. -/
theorem Ordered.safe {held : Set L} {code : Code L S} (h : Ordered rank held code) :
    Safe (fun _ _ => True) held code := by
  induction code generalizing held with
  | done => exact h
  | lock l rest ih => exact ⟨fun hl => absurd (h.1 l hl) (lt_irrefl _), ih h.2⟩
  | unlock l rest ih => exact ⟨h.1, ih h.2⟩
  | access f rest ih => exact fun cell => ⟨fun _ => ih _ (h _), fun bad => absurd trivial bad⟩
  | choose rest ih => exact fun choice => ih choice (h choice)

omit [DecidableEq L] in
/-- A lock is taken and given back. -/
theorem Ordered.section {held : Set L} {l : L} {k : Code L S} (hl : ∀ j ∈ held, rank j < rank l)
    (h : Ordered rank held k) : Ordered rank held (.lock l (.unlock l k)) := by
  have hnot : l ∉ held := fun hmem => lt_irrefl _ (hl l hmem)
  refine ⟨hl, Set.mem_insert _ _, ?_⟩
  rwa [Set.insert_sdiff_self_of_notMem hnot]

section Steps

variable {s s' : State ι L S} {t : ι} {calls : C → Code L S}

omit [DecidableEq ι] [DecidableEq L] in
theorem allOrdered_new (cell : S) : AllOrdered rank (State.new cell : State ι L S) :=
  fun _ => Set.eq_empty_of_forall_notMem fun _ h => Option.some_ne_none _ h.symm

omit [DecidableEq ι] [DecidableEq L] in
theorem AllOrdered.not_selfDeadlock (h : AllOrdered rank s) : ¬s.SelfDeadlock :=
  Disciplined.not_selfDeadlock fun t => (h t).safe

omit [DecidableEq L] in
/-- A thread goes on without taking or giving back a lock. -/
theorem AllOrdered.goOn (h : AllOrdered rank s) {rest : Code L S} {cell : S}
    (ordered : Ordered rank (s.held t) rest) :
    AllOrdered rank { s.goOn t rest with cell } := by
  intro u
  show Ordered rank (s.held u) (Function.update s.code t rest u)
  by_cases hu : u = t
  · subst hu
    rwa [Function.update_self]
  · rw [Function.update_of_ne hu]
    exact h u

omit [DecidableEq L] in
theorem AllOrdered.call (h : AllOrdered rank s) {code : Code L S} (ordered : Ordered rank ∅ code)
    (hcall : s.call t code = some s') : AllOrdered rank s' := by
  have hself := h t
  rw [State.call] at hcall
  split at hcall
  · next hcode =>
      cases hcall
      rw [hcode] at hself
      have hempty : s.held t = ∅ := hself
      exact h.goOn (hempty ▸ ordered)
  · cases hcall

theorem AllOrdered.run (h : AllOrdered rank s) {choice : Nat} (hrun : s.run t choice = some s') :
    AllOrdered rank s' := by
  have hself := h t
  rw [State.run] at hrun
  split at hrun
  · cases hrun
  · next l rest hcode =>
      obtain ⟨hfree, hrun⟩ := Option.ite_none_right_eq_some.mp hrun
      cases hrun
      rw [hcode] at hself
      intro u
      rw [State.held_lock hfree]
      by_cases hu : u = t
      · subst hu
        simpa [State.goOn] using hself.2
      · simpa [State.goOn, Function.update_of_ne hu, hu] using h u
  · next l rest hcode =>
      cases hrun
      rw [hcode] at hself
      intro u
      rw [State.held_unlock hself.1]
      by_cases hu : u = t
      · subst hu
        simpa [State.goOn] using hself.2
      · simpa [State.goOn, Function.update_of_ne hu, hu] using h u
  · next f rest hcode =>
      cases hrun
      rw [hcode] at hself
      exact h.goOn (hself _)
  · next rest hcode =>
      cases hrun
      rw [hcode] at hself
      show AllOrdered rank { s.goOn t (rest choice) with cell := s.cell }
      exact h.goOn (hself choice)

theorem AllOrdered.step (hcalls : ∀ c, Ordered rank ∅ (calls c)) (h : AllOrdered rank s)
    {m : ι × Move C} (hstep : Step calls s m s') : AllOrdered rank s' := by
  obtain ⟨t, c | choice⟩ := m
  · exact h.call (hcalls c) hstep
  · exact h.run hstep

end Steps

section Progress

variable {s s' : State ι L S} {t : ι} {l : L} {calls : C → Code L S}

/-- A thread that does not ask for a lock can go on. -/
theorem State.exists_run (hcode : s.code t ≠ .done) (hlock : ∀ l rest, s.code t ≠ .lock l rest) :
    ∃ s', s.run t 0 = some s' := by
  rw [State.run]
  split
  · next h => exact absurd h hcode
  · next l rest h => exact absurd h (hlock l rest)
  all_goals exact ⟨_, rfl⟩

/-- Someone can go on if a lock is held: the holder, or whoever it waits for in the end. The
induction is on the ranks that are left. -/
theorem AllOrdered.exists_run_of_held (bound : ∀ l, rank l ≤ N) (h : AllOrdered rank s)
    (hheld : s.holder l = some t) : ∃ u s', s.run u 0 = some s' := by
  induction hn : N - rank l using Nat.strong_induction_on generalizing l t with
  | _ n ih =>
      have hself := h t
      have hcode : s.code t ≠ .done := fun hdone => by
        rw [hdone] at hself
        have hempty : s.held t = ∅ := hself
        exact Set.notMem_empty l (hempty ▸ hheld)
      by_cases hlock : ∀ k rest, s.code t ≠ .lock k rest
      · exact ⟨t, State.exists_run hcode hlock⟩
      · obtain ⟨k, rest, hk⟩ : ∃ k rest, s.code t = .lock k rest := by
          simpa using hlock
        cases hfree : s.holder k with
        | none => exact ⟨t, _, by rw [State.run, hk]; exact if_pos hfree⟩
        | some u =>
            rw [hk] at hself
            have hlt : rank l < rank k := hself.1 l hheld
            have hle := bound k
            exact ih _ (by omega) hfree rfl

/-- As long as a thread has something to do, one of the threads can do it. -/
theorem AllOrdered.exists_run (bound : ∀ l, rank l ≤ N) (h : AllOrdered rank s)
    (hcode : s.code t ≠ .done) : ∃ u s', s.run u 0 = some s' := by
  by_cases hlock : ∀ l rest, s.code t ≠ .lock l rest
  · exact ⟨t, State.exists_run hcode hlock⟩
  · obtain ⟨l, rest, hl⟩ : ∃ l rest, s.code t = .lock l rest := by
      simpa using hlock
    cases hheld : s.holder l with
    | none => exact ⟨t, _, by rw [State.run, hl]; exact if_pos hheld⟩
    | some u => exact h.exists_run_of_held bound hheld

/-- What a thread has to do after its next instruction. -/
def Code.Next : Code L S → Code L S → Prop
  | _, .done => False
  | next, .lock _ rest => next = rest
  | next, .unlock _ rest => next = rest
  | next, .access _ rest => ∃ answer, next = rest answer
  | next, .choose rest => ∃ choice, next = rest choice

omit [DecidableEq L] in
theorem Code.next_wf : WellFounded (Code.Next : Code L S → Code L S → Prop) := by
  refine ⟨fun code => ?_⟩
  induction code with
  | done => exact ⟨_, fun _ h => h.elim⟩
  | lock l rest ih => exact ⟨_, fun _ h => h ▸ ih⟩
  | unlock l rest ih => exact ⟨_, fun _ h => h ▸ ih⟩
  | access f rest ih =>
      refine ⟨_, ?_⟩
      rintro _ ⟨answer, rfl⟩
      exact ih answer
  | choose rest ih =>
      refine ⟨_, ?_⟩
      rintro _ ⟨choice, rfl⟩
      exact ih choice

/-- A thread executes its next instruction. -/
def Runs (s s' : State ι L S) : Prop := ∃ t choice, s.run t choice = some s'

theorem State.run_next {choice : Nat} (hrun : s.run t choice = some s') :
    Code.Next (s'.code t) (s.code t) ∧ ∀ u ≠ t, s'.code u = s.code u := by
  rw [State.run] at hrun
  split at hrun
  · cases hrun
  · next l rest hcode =>
      obtain ⟨-, hrun⟩ := Option.ite_none_right_eq_some.mp hrun
      cases hrun
      refine ⟨?_, fun u hu => Function.update_of_ne hu _ _⟩
      rw [hcode]
      exact Function.update_self _ _ _
  · next l rest hcode =>
      cases hrun
      refine ⟨?_, fun u hu => Function.update_of_ne hu _ _⟩
      rw [hcode]
      exact Function.update_self _ _ _
  · next f rest hcode =>
      cases hrun
      refine ⟨?_, fun u hu => Function.update_of_ne hu _ _⟩
      rw [hcode]
      exact ⟨_, Function.update_self _ _ _⟩
  · next rest hcode =>
      cases hrun
      refine ⟨?_, fun u hu => Function.update_of_ne hu _ _⟩
      rw [hcode]
      exact ⟨choice, Function.update_self _ _ _⟩

/-- All threads but finitely many have nothing to do. -/
def FewBusy (s : State ι L S) (T : Finset ι) : Prop := ∀ t ∉ T, s.code t = .done

theorem FewBusy.runs {T : Finset ι} (h : FewBusy s T) (hruns : Runs s s') :
    FewBusy s' T ∧ CutExpand Code.Next (T.val.map s'.code) (T.val.map s.code) := by
  obtain ⟨t, choice, hrun⟩ := hruns
  obtain ⟨hnext, hothers⟩ := State.run_next hrun
  have ht : t ∈ T := by
    by_contra hmem
    rw [h t hmem] at hnext
    exact hnext
  refine ⟨fun u hu => ?_, {s'.code t}, s.code t, fun c hc => ?_, ?_⟩
  · rw [hothers u fun hut => hu (hut ▸ ht)]
    exact h u hu
  · rwa [Multiset.mem_singleton.mp hc]
  · have hsplit : T.val = t ::ₘ (T.erase t).val := by
      rw [Finset.erase_val, Multiset.cons_erase ht]
    have hrest : (T.erase t).val.map s'.code = (T.erase t).val.map s.code :=
      Multiset.map_congr rfl fun u hu => hothers u (Finset.ne_of_mem_erase hu)
    rw [hsplit, Multiset.map_cons, Multiset.map_cons, hrest, ← Multiset.singleton_add,
      ← Multiset.singleton_add]
    ac_rfl

/-- Without new calls the threads come to an end, whoever goes on. -/
theorem acc_runs {T : Finset ι} (h : FewBusy s T) : Acc (fun s' s => Runs s s') s := by
  induction hcodes : T.val.map s.code using Code.next_wf.cutExpand.induction generalizing s with
  | _ codes ih =>
      refine ⟨_, fun s' hruns => ?_⟩
      obtain ⟨h', hless⟩ := h.runs hruns
      exact ih _ (hcodes ▸ hless) h' rfl

/-- Only finitely many threads are busy in a run. -/
theorem fewBusy_of_run {cell : S} {tr : List (ι × Move C)}
    (run : Run (Step calls) (State.new cell) tr s) : ∃ T, FewBusy s T := by
  refine run.invariant (I := fun u => ∃ T, FewBusy u T) ⟨∅, fun _ _ => rfl⟩ ?_
  rintro u ⟨t, c | choice⟩ v ⟨T, h⟩ hstep
  · refine ⟨insert t T, fun w hw => ?_⟩
    obtain ⟨hwt, hwT⟩ := not_or.mp fun hor => hw (Finset.mem_insert.mpr hor)
    have hcall : u.call t (calls c) = some v := hstep
    rw [State.call] at hcall
    split at hcall
    · cases hcall
      exact (Function.update_of_ne hwt _ _).trans (h w hwT)
    · cases hcall
  · exact ⟨T, (h.runs ⟨t, choice, hstep⟩).1⟩

/-- Calls that take their locks in order do not block each other. -/
theorem progress (bound : ∀ l, rank l ≤ N) (hcalls : ∀ c, Ordered rank ∅ (calls c)) {cell : S}
    {tr : List (ι × Move C)} (run : Run (Step calls) (State.new cell) tr s) :
    ¬s.SelfDeadlock ∧ ((∃ t, s.code t ≠ .done) → ∃ s', Runs s s') ∧
      Acc (fun s' s => Runs s s') s := by
  have h : AllOrdered rank s :=
    run.invariant (allOrdered_new cell) fun _ _ _ h hstep => h.step hcalls hstep
  obtain ⟨T, hT⟩ := fewBusy_of_run run
  refine ⟨h.not_selfDeadlock, fun ⟨t, ht⟩ => ?_, acc_runs hT⟩
  obtain ⟨u, s', hrun⟩ := h.exists_run bound ht
  exact ⟨s', u, 0, hrun⟩

end Progress

end Locks
