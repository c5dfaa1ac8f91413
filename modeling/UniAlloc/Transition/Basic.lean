import Mathlib.Data.List.Induction

/-!
# Runs of labelled transition relations

`Run step s tr t` means that the labels in `tr`, read from left to right, take
state `s` to state `t`. Runs grow at the end, so an invariant may mention the
trace that led to the current state; that is the shape in which safety facts
about histories are proved. Nothing here fixes the states or the labels.
-/

namespace Transition

variable {σ τ α : Type*}

/-- A finite run, extended on the right by one labelled step at a time. -/
inductive Run (step : σ → α → σ → Prop) (s : σ) : List α → σ → Prop where
  | nil : Run step s [] s
  | snoc {tr a u t} : Run step s tr u → step u a t → Run step s (tr ++ [a]) t

/-- States reached by some run from a state satisfying `init`. -/
def Reachable (init : σ → Prop) (step : σ → α → σ → Prop) (t : σ) : Prop :=
  ∃ s tr, init s ∧ Run step s tr t

namespace Run

variable {step : σ → α → σ → Prop} {s t u : σ} {tr tr' : List α}

theorem single {a : α} (h : step s a t) : Run step s [a] t :=
  (Run.snoc .nil h : Run step s ([] ++ [a]) t)

/-- Runs compose and their traces are appended. -/
theorem trans (first : Run step s tr u) (second : Run step u tr' t) :
    Run step s (tr ++ tr') t := by
  induction second with
  | nil => simpa using first
  | snoc _ hstep ih => simpa only [← List.append_assoc] using ih.snoc hstep

theorem cons {a : α} (h : step s a u) (rest : Run step u tr t) :
    Run step s (a :: tr) t :=
  (single h).trans rest

/-- More steps have more runs. -/
theorem mono {step' : σ → α → σ → Prop} (h : Run step s tr t)
    (sub : ∀ u a v, step u a v → step' u a v) : Run step' s tr t := by
  induction h with
  | nil => exact .nil
  | snoc _ hstep ih => exact ih.snoc (sub _ _ _ hstep)

/-- The rule for properties of a state together with its history: they hold at
the start with an empty history and every step of the run preserves them. -/
theorem history_invariant {I : List α → σ → Prop} (run : Run step s tr t)
    (start : I [] s)
    (preserved : ∀ pre u a v, I pre u → step u a v → I (pre ++ [a]) v) : I tr t := by
  induction run with
  | nil => exact start
  | snoc _ hstep ih => exact preserved _ _ _ _ ih hstep

/-- The usual invariant rule, for properties of states alone. -/
theorem invariant {I : σ → Prop} (run : Run step s tr t) (start : I s)
    (preserved : ∀ u a v, I u → step u a v → I v) : I t :=
  run.history_invariant (I := fun _ => I) start (fun _ u a v => preserved u a v)

/-- The rule of forward simulation: hidden steps keep the relation, and a step that shows is
answered by a step of the other side with the same label. -/
theorem simulate {step' : τ → α → τ → Prop} {R : σ → τ → Prop} {shows : α → Bool} {x : τ}
    (run : Run step s tr t) (start : R s x)
    (hidden : ∀ {u a v y}, R u y → step u a v → shows a = false → R v y)
    (shown : ∀ {u a v y}, R u y → step u a v → shows a = true → ∃ z, step' y a z ∧ R v z) :
    ∃ y, Run step' x (tr.filter shows) y ∧ R t y := by
  induction run with
  | nil => exact ⟨x, .nil, start⟩
  | @snoc tr a u v _ hstep ih =>
      obtain ⟨y, hrun, hR⟩ := ih
      cases hshow : shows a with
      | false =>
          refine ⟨y, ?_, hidden hR hstep hshow⟩
          simpa [List.filter_append, hshow] using hrun
      | true =>
          obtain ⟨z, hstep', hR'⟩ := shown hR hstep hshow
          refine ⟨z, ?_, hR'⟩
          simpa [List.filter_append, hshow] using hrun.snoc hstep'

end Run

/-- The invariant rule over all reachable states. -/
theorem Reachable.invariant {init : σ → Prop} {step : σ → α → σ → Prop} {I : σ → Prop} {t : σ}
    (h : Reachable init step t) (start : ∀ s, init s → I s)
    (preserved : ∀ u a v, I u → step u a v → I v) : I t := by
  obtain ⟨s, tr, hs, run⟩ := h
  exact run.invariant (start s hs) preserved

/-- A run that also records the state after each label, for properties of the
instants of a run. -/
def Path (step : σ → α → σ → Prop) : σ → List (α × σ) → Prop
  | _, [] => True
  | s, (a, t) :: rest => step s a t ∧ Path step t rest

/-- Every step of a path begins as `P` says. -/
def Path.Each (P : σ → α → Prop) : σ → List (α × σ) → Prop
  | _, [] => True
  | s, (a, t) :: rest => P s a ∧ Path.Each P t rest

/-- The state a path ends in. -/
def Path.last : σ → List (α × σ) → σ
  | s, [] => s
  | _, (_, t) :: rest => Path.last t rest

theorem Path.run {step : σ → α → σ → Prop} {s : σ} {path : List (α × σ)}
    (h : Path step s path) : Run step s (path.map Prod.fst) (Path.last s path) := by
  induction path generalizing s with
  | nil => exact .nil
  | cons x rest ih =>
      obtain ⟨a, t⟩ := x
      obtain ⟨hstep, hrest⟩ := h
      exact Run.cons hstep (ih hrest)

/-- The path a schedule takes, given the step each of its moves stands for. Moves
that are not possible are skipped. -/
def play {μ : Type*} (move : σ → μ → Option (α × σ)) : σ → List μ → List (α × σ)
  | _, [] => []
  | s, m :: rest =>
      match move s m with
      | none => play move s rest
      | some x => x :: play move x.2 rest

theorem play_path {μ : Type*} {step : σ → α → σ → Prop} {move : σ → μ → Option (α × σ)}
    (sound : ∀ {s m x}, move s m = some x → step s x.1 x.2) (s : σ) (moves : List μ) :
    Path step s (play move s moves) := by
  induction moves generalizing s with
  | nil => trivial
  | cons m rest ih =>
      simp only [play]
      split
      · exact ih s
      · next x h => exact ⟨sound h, ih x.2⟩

end Transition
