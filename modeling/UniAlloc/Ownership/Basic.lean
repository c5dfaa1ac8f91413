import Mathlib.Order.BooleanAlgebra.Set
import Mathlib.Data.Option.Basic
import Mathlib.Logic.Function.Basic

/-!
# Things with one owner

Places hold things, at most one each. `Exclusive place live` says that the things in `live` are
exactly the ones some place holds, and that no two places hold the same. A place takes a new
thing, hands its thing to an empty place, or lets go of it. Nothing here fixes the places or the
things.
-/

namespace Ownership

variable {ι α : Type*}

structure Exclusive (place : ι → Option α) (live : Set α) : Prop where
  unique : ∀ {o o' p}, place o = some p → place o' = some p → o = o'
  held : ∀ {p}, p ∈ live ↔ ∃ o, place o = some p

namespace Exclusive

variable {place place' : ι → Option α} {live : Set α} {o o' : ι} {p : α}

theorem empty : Exclusive (fun _ : ι => (none : Option α)) ∅ where
  unique h := absurd h.symm (Option.some_ne_none _)
  held := iff_of_false (Set.notMem_empty _) fun ⟨_, h⟩ => Option.some_ne_none _ h.symm

theorem mem (h : Exclusive place live) (ho : place o = some p) : p ∈ live :=
  h.held.mpr ⟨o, ho⟩

/-- Every live thing has one owner. -/
theorem existsUnique (h : Exclusive place live) (hp : p ∈ live) : ∃! o, place o = some p := by
  obtain ⟨o, ho⟩ := h.held.mp hp
  exact ⟨o, ho, fun o' ho' => h.unique ho' ho⟩

theorem congr (h : Exclusive place live) (same : ∀ o, place' o = place o) :
    Exclusive place' live := by
  obtain rfl : place' = place := funext same
  exact h

variable [DecidableEq ι]

/-- An empty place takes a new thing. -/
theorem take (h : Exclusive place live) (ho : place o = none) (hp : p ∉ live)
    (same : ∀ u, place' u = if u = o then some p else place u) :
    Exclusive place' (insert p live) where
  unique {u v q} hu hv := by
    rw [same] at hu hv
    split at hu <;> split at hv
    · next hu' hv' => exact hu'.trans hv'.symm
    · cases hu
      exact absurd (h.mem hv) hp
    · cases hv
      exact absurd (h.mem hu) hp
    · exact h.unique hu hv
  held {q} := by
    constructor
    · rintro (rfl | hq)
      · exact ⟨o, by rw [same, if_pos rfl]⟩
      · obtain ⟨u, hu⟩ := h.held.mp hq
        refine ⟨u, ?_⟩
        rw [same, if_neg]
        · exact hu
        · rintro rfl
          exact Option.some_ne_none _ (hu.symm.trans ho)
    · rintro ⟨u, hu⟩
      rw [same] at hu
      split at hu
      · cases hu
        exact Set.mem_insert _ _
      · exact Set.mem_insert_of_mem _ (h.mem hu)

/-- A place lets go of its thing. -/
theorem release (h : Exclusive place live) (ho : place o = some p)
    (same : ∀ u, place' u = if u = o then none else place u) :
    Exclusive place' (live \ {p}) where
  unique {u v q} hu hv := by
    rw [same] at hu hv
    split at hu <;> split at hv
    · cases hu
    · cases hu
    · cases hv
    · exact h.unique hu hv
  held {q} := by
    constructor
    · rintro ⟨hq, hne⟩
      obtain ⟨u, hu⟩ := h.held.mp hq
      refine ⟨u, ?_⟩
      rw [same, if_neg]
      · exact hu
      · rintro rfl
        exact hne (Option.some.inj (hu.symm.trans ho))
    · rintro ⟨u, hu⟩
      rw [same] at hu
      split at hu
      · cases hu
      · next hne =>
          refine ⟨h.mem hu, ?_⟩
          rintro rfl
          exact hne (h.unique hu ho)

/-- A place hands its thing to an empty place. -/
theorem move (h : Exclusive place live) (ho : place o = some p) (o' : ι) (ho' : place o' = none)
    (same : ∀ u, place' u = if u = o' then some p else if u = o then none else place u) :
    Exclusive place' live := by
  have hne : o' ≠ o := by
    rintro rfl
    exact Option.some_ne_none _ (ho.symm.trans ho')
  have gone : Exclusive (fun u => if u = o then none else place u) (live \ {p}) :=
    h.release ho fun _ => rfl
  have moved := gone.take (o := o') (p := p) (by rw [if_neg hne, ho']) (fun hp => hp.2 rfl) same
  rwa [Set.insert_sdiff_self_of_mem (h.mem ho)] at moved

end Exclusive

/-- A pointer, unless it is null. -/
def nonnull (p : Nat) : Option Nat := if p = 0 then none else some p

@[simp] theorem nonnull_eq_none {p : Nat} : nonnull p = none ↔ p = 0 := by
  simp [nonnull]

@[simp] theorem nonnull_eq_some {p q : Nat} : nonnull p = some q ↔ p = q ∧ q ≠ 0 := by
  rw [nonnull]
  split
  · next h =>
      subst h
      refine iff_of_false (fun h => ?_) fun h => h.2 h.1.symm
      cases h
  · next h =>
      rw [Option.some.injEq]
      exact ⟨fun e => ⟨e, e ▸ h⟩, fun e => e.1⟩

end Ownership
