import Mathlib.Order.BooleanAlgebra.Set
import UniAlloc.Transition.Basic

/-!
# Programs with locks

Threads run programs that take and give back locks which cannot be taken twice, and
read and write one shared cell in between. `Safe held code` says that a thread that
holds the locks `held` and goes on with `code` never asks for a lock it holds, as long
as it finds the cell in a state that `allowed` permits; otherwise it asks for one right
away. Nothing here fixes the locks, the cell or the threads.
-/

namespace Locks

open Transition

/-- What a thread still has to do. -/
inductive Code (L S : Type) where
  | done
  | lock (l : L) (rest : Code L S)
  | unlock (l : L) (rest : Code L S)
  /-- One atomic access to the cell. The answer decides how to go on. -/
  | access (f : S → S × Bool) (rest : Bool → Code L S)
  /-- A value that depends on neither the locks nor the cell. -/
  | choose (rest : Nat → Code L S)

variable {ι L S C : Type} [DecidableEq ι] [DecidableEq L]

structure State (ι L S : Type) where
  holder : L → Option ι
  cell : S
  code : ι → Code L S

namespace State

def new (cell : S) : State ι L S := ⟨fun _ => none, cell, fun _ => .done⟩

def goOn (s : State ι L S) (t : ι) (rest : Code L S) : State ι L S :=
  { s with code := Function.update s.code t rest }

/-- The next instruction of a thread. `choice` is the value of the next `choose`. A thread
that asks for a lock that is held waits. -/
def run (s : State ι L S) (t : ι) (choice : Nat) : Option (State ι L S) :=
  match s.code t with
  | .done => none
  | .lock l rest =>
      if s.holder l = none then
        some { s.goOn t rest with holder := Function.update s.holder l (some t) }
      else none
  | .unlock l rest => some { s.goOn t rest with holder := Function.update s.holder l none }
  | .access f rest => some { s.goOn t (rest (f s.cell).2) with cell := (f s.cell).1 }
  | .choose rest => some (s.goOn t (rest choice))

/-- A thread that has nothing to do makes a call. -/
def call (s : State ι L S) (t : ι) (code : Code L S) : Option (State ι L S) :=
  match s.code t with
  | .done => some (s.goOn t code)
  | _ => none

/-- The locks of a thread. -/
def held (s : State ι L S) (t : ι) : Set L := {l | s.holder l = some t}

/-- A thread asks for a lock that it holds. -/
def SelfDeadlock (s : State ι L S) : Prop :=
  ∃ t l rest, s.code t = .lock l rest ∧ s.holder l = some t

/-- The next instruction of the thread asks for a lock that it holds. -/
def spins (s : State ι L S) (t : ι) : Bool :=
  match s.code t with
  | .lock l _ => s.holder l = some t
  | _ => false

omit [DecidableEq L] in
theorem selfDeadlock_of_spins {s : State ι L S} {t : ι} (h : s.spins t = true) :
    s.SelfDeadlock := by
  rw [spins] at h
  split at h
  · next l rest hcode => exact ⟨t, l, rest, hcode, of_decide_eq_true h⟩
  · cases h

end State

inductive Move (C : Type) where
  | call (c : C)
  | run (choice : Nat)

/-- One thread makes one move. -/
def Step (calls : C → Code L S) (s : State ι L S) (m : ι × Move C) (s' : State ι L S) : Prop :=
  match m.2 with
  | .call c => s.call m.1 (calls c) = some s'
  | .run choice => s.run m.1 choice = some s'

/-- The step a move stands for, if it is possible. -/
def State.move (calls : C → Code L S) (s : State ι L S) (m : ι × Move C) :
    Option ((ι × Move C) × State ι L S) :=
  match m.2 with
  | .call c => (s.call m.1 (calls c)).map fun s' => (m, s')
  | .run choice => (s.run m.1 choice).map fun s' => (m, s')

theorem State.move_step {calls : C → Code L S} {s : State ι L S} {m : ι × Move C}
    {x : (ι × Move C) × State ι L S} (h : s.move calls m = some x) : Step calls s x.1 x.2 := by
  obtain ⟨t, c | choice⟩ := m
  · obtain ⟨s', hcall, rfl⟩ := Option.map_eq_some_iff.mp h
    exact hcall
  · obtain ⟨s', hrun, rfl⟩ := Option.map_eq_some_iff.mp h
    exact hrun

variable (allowed : Set L → S → Prop)

/-- The thread asks for no lock that it holds, as long as it finds the cell as `allowed` says. -/
def Safe : Set L → Code L S → Prop
  | held, .done => held = ∅
  | held, .lock l rest => l ∉ held ∧ Safe (insert l held) rest
  | held, .unlock l rest => l ∈ held ∧ Safe (held \ {l}) rest
  | held, .access f rest => ∀ cell,
      (allowed held cell → Safe held (rest (f cell).2)) ∧
      (¬allowed held cell → ∃ l ∈ held, ∃ k, rest (f cell).2 = .lock l k)
  | held, .choose rest => ∀ choice, Safe held (rest choice)

/-- If the next instruction of a thread is an access, the cell is as `allowed` says. -/
def Allows (s : State ι L S) (t : ι) : Prop :=
  ∀ f rest, s.code t = .access f rest → allowed (s.held t) s.cell

/-- All threads keep the discipline. -/
def Disciplined (s : State ι L S) : Prop := ∀ t, Safe allowed (s.held t) (s.code t)

variable {allowed} {calls : C → Code L S} {s s' : State ι L S} {t u : ι} {l : L}

omit [DecidableEq L] in
/-- A lock is taken and given back. -/
theorem Safe.section {held : Set L} {k : Code L S} (hl : l ∉ held) (h : Safe allowed held k) :
    Safe allowed held (.lock l (.unlock l k)) := by
  refine ⟨hl, Set.mem_insert _ _, ?_⟩
  rwa [Set.insert_sdiff_self_of_notMem hl]

omit [DecidableEq ι] [DecidableEq L] in
theorem disciplined_new (cell : S) : Disciplined allowed (State.new cell : State ι L S) :=
  fun _ => Set.eq_empty_of_forall_notMem fun _ h => Option.some_ne_none _ h.symm

omit [DecidableEq ι] [DecidableEq L] in
theorem Disciplined.not_selfDeadlock (disc : Disciplined allowed s) : ¬s.SelfDeadlock := by
  rintro ⟨t, l, rest, hcode, hheld⟩
  have := disc t
  rw [hcode] at this
  exact this.1 hheld

omit [DecidableEq L] in
/-- A thread goes on without taking or giving back a lock. -/
theorem Disciplined.goOn (disc : Disciplined allowed s) {rest : Code L S} {cell : S}
    (safe : Safe allowed (s.held t) rest) :
    Disciplined allowed { s.goOn t rest with cell } := by
  intro u
  show Safe allowed (s.held u) (Function.update s.code t rest u)
  by_cases hu : u = t
  · subst hu
    rwa [Function.update_self]
  · rw [Function.update_of_ne hu]
    exact disc u

omit [DecidableEq L] in
/-- A call is made by a thread that holds nothing. -/
theorem Disciplined.call (disc : Disciplined allowed s) {code : Code L S}
    (safe : Safe allowed ∅ code) (hcall : s.call t code = some s') : Disciplined allowed s' := by
  have hsafe := disc t
  rw [State.call] at hcall
  split at hcall
  · next hcode =>
      cases hcall
      rw [hcode] at hsafe
      have hempty : s.held t = ∅ := hsafe
      exact disc.goOn (hempty ▸ safe)
  · cases hcall

theorem State.held_lock (hfree : s.holder l = none) (rest : Code L S) (u : ι) :
    State.held { s.goOn t rest with holder := Function.update s.holder l (some t) } u =
      if u = t then insert l (s.held t) else s.held u := by
  ext k
  by_cases hk : k = l
  · subst hk
    by_cases hu : u = t
    · simp [State.held, hu]
    · simp [State.held, hu, hfree, Ne.symm hu]
  · by_cases hu : u = t
    · simp [State.held, hu, hk]
    · simp [State.held, hu, hk]

theorem State.held_unlock (hheld : s.holder l = some t) (rest : Code L S) (u : ι) :
    State.held { s.goOn t rest with holder := Function.update s.holder l none } u =
      if u = t then s.held t \ {l} else s.held u := by
  ext k
  by_cases hk : k = l
  · subst hk
    by_cases hu : u = t
    · simp [State.held, hu]
    · simp [State.held, hu, hheld, Ne.symm hu]
  · by_cases hu : u = t
    · simp [State.held, hu, hk]
    · simp [State.held, hu, hk]

/-- An instruction keeps the discipline if the cell is as it should be. -/
theorem Disciplined.run (disc : Disciplined allowed s) {choice : Nat}
    (hrun : s.run t choice = some s') (ok : Allows allowed s t) : Disciplined allowed s' := by
  have hsafe := disc t
  rw [State.run] at hrun
  split at hrun
  · cases hrun
  · next l rest hcode =>
      obtain ⟨hfree, hrun⟩ := Option.ite_none_right_eq_some.mp hrun
      cases hrun
      rw [hcode] at hsafe
      intro u
      rw [State.held_lock hfree]
      by_cases hu : u = t
      · subst hu
        simpa [State.goOn] using hsafe.2
      · simpa [State.goOn, Function.update_of_ne hu, hu] using disc u
  · next l rest hcode =>
      cases hrun
      rw [hcode] at hsafe
      intro u
      rw [State.held_unlock hsafe.1]
      by_cases hu : u = t
      · subst hu
        simpa [State.goOn] using hsafe.2
      · simpa [State.goOn, Function.update_of_ne hu, hu] using disc u
  · next f rest hcode =>
      cases hrun
      have hok := ok f rest hcode
      rw [hcode] at hsafe
      exact disc.goOn ((hsafe s.cell).1 hok)
  · next rest hcode =>
      cases hrun
      rw [hcode] at hsafe
      show Disciplined allowed { s.goOn t (rest choice) with cell := s.cell }
      exact disc.goOn (hsafe choice)

/-- If the cell is not as it should be, the thread comes to ask for a lock that it holds. -/
theorem Disciplined.trapped (disc : Disciplined allowed s) {choice : Nat}
    (hrun : s.run t choice = some s') (bad : ¬Allows allowed s t) : s'.SelfDeadlock := by
  have hsafe := disc t
  obtain ⟨f, rest, hcode, hbad⟩ : ∃ f rest, s.code t = .access f rest ∧
      ¬allowed (s.held t) s.cell := by
    simpa [Allows] using bad
  rw [hcode] at hsafe
  obtain ⟨l, hl, k, hnext⟩ := (hsafe s.cell).2 hbad
  rw [State.run, hcode] at hrun
  cases hrun
  refine ⟨t, l, k, ?_, hl⟩
  rw [← hnext]
  exact Function.update_self _ _ _

theorem Disciplined.step (hcalls : ∀ c, Safe allowed ∅ (calls c)) (disc : Disciplined allowed s)
    {m : ι × Move C} (hstep : Step calls s m s') (ok : Allows allowed s m.1) :
    Disciplined allowed s' := by
  obtain ⟨t, c | choice⟩ := m
  · exact disc.call (hcalls c) hstep
  · exact disc.run hstep ok

/-- Along a path no thread ever asks for a lock that it holds, if and only if every access
finds the cell as it should be. -/
theorem selfDeadlock_free_iff (hcalls : ∀ c, Safe allowed ∅ (calls c))
    {path : List ((ι × Move C) × State ι L S)} (disc : Disciplined allowed s)
    (h : Path (Step calls) s path) :
    (∀ u ∈ s :: path.map Prod.snd, ¬u.SelfDeadlock) ↔
      Path.Each (fun s m => Allows allowed s m.1) s path := by
  induction path generalizing s with
  | nil => exact iff_of_true (by simpa using disc.not_selfDeadlock) trivial
  | cons x rest ih =>
      obtain ⟨m, u⟩ := x
      obtain ⟨hstep, hrest⟩ := h
      by_cases ok : Allows allowed s m.1
      · have ih := ih (disc.step hcalls hstep ok) hrest
        rw [List.map_cons, List.forall_mem_cons, ih]
        exact ⟨fun h => ⟨ok, h.2⟩, fun h => ⟨disc.not_selfDeadlock, h.2⟩⟩
      · refine iff_of_false (fun hfree => ?_) fun h => ok h.1
        obtain ⟨t, c | choice⟩ := m
        · refine ok fun f k hcode => ?_
          have hcall : s.call t (calls c) = some u := hstep
          rw [State.call, hcode] at hcall
          cases hcall
        · refine hfree u ?_ (disc.trapped hstep ok)
          exact List.mem_cons_of_mem _ List.mem_cons_self

end Locks
