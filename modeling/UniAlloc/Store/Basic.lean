import UniAlloc.Transition.Basic
import Mathlib.Data.Multiset.AddSub

/-!
# Stores of objects

What an allocator is for, whatever it does inside: a program owns objects, each of which
occupies memory of its own. It writes to them, and nobody else does. An object that is
resized may move, and takes its contents with it.
-/

namespace Store

open Transition

/-- How objects lie in memory: an object has `size` cells, and cell `i` is at `addr i`. -/
structure Shape (α A : Type*) where
  size : α → Nat
  addr : α → Nat → A

variable {α A V : Type*}

namespace Shape

variable (sh : Shape α A)

/-- A cell of an object. -/
def Cell (o : α) (a : A) : Prop := ∃ i < sh.size o, sh.addr o i = a

/-- Two objects have no cell in common. -/
def Apart (o c : α) : Prop := ∀ a, sh.Cell o a → ¬sh.Cell c a

/-- The objects keep their contents. -/
def SameOn (objs : Multiset α) (f g : A → V) : Prop := ∀ o ∈ objs, ∀ a, sh.Cell o a → g a = f a

variable {sh} {o c : α} {objs objs' : Multiset α} {f g h : A → V}

/-- The cells of objects that lie in one piece. -/
theorem cell_iff_of_contiguous {sh : Shape α Nat} (base : α → Nat)
    (contiguous : ∀ o i, sh.addr o i = base o + i) {o : α} {a : Nat} :
    sh.Cell o a ↔ base o ≤ a ∧ a < base o + sh.size o := by
  constructor
  · rintro ⟨i, hi, rfl⟩
    rw [contiguous]
    exact ⟨Nat.le_add_right _ _, Nat.add_lt_add_left hi _⟩
  · rintro ⟨hle, hlt⟩
    refine ⟨a - base o, by omega, ?_⟩
    rw [contiguous]
    exact Nat.add_sub_cancel' hle

theorem Apart.symm (apart : sh.Apart o c) : sh.Apart c o := fun a hc ho => apart a ho hc

theorem SameOn.refl (objs : Multiset α) (f : A → V) : sh.SameOn objs f f := fun _ _ _ _ => rfl

theorem SameOn.add (same : sh.SameOn objs f g) (same' : sh.SameOn objs' f g) :
    sh.SameOn (objs + objs') f g :=
  fun o ho => (Multiset.mem_add.mp ho).elim (same o) (same' o)

end Shape

/-- The objects that the program owns, and what is in memory. -/
structure State (α A V : Type*) where
  objs : Multiset α
  mem : A → V

inductive Event (α V : Type*) where
  | alloc (o : α)
  | free (o : α)
  | write (o : α) (i : Nat) (v : V)
  | resize (o o' : α)
  /-- Nothing that the program can see. -/
  | silent

/-- The event writes to the object or takes it away. -/
def Event.Touches (o : α) : Event α V → Prop
  | .free c | .write c _ _ | .resize c _ => c = o
  | .alloc _ | .silent => False

section

variable [DecidableEq α]

/-- Every object fits, as far as that has been promised, and keeps its contents unless the
program changes them. -/
inductive Step (sh : Shape α A) (fits : α → Prop) : State α A V → Event α V → State α A V → Prop
  where
  | alloc {s o mem} : fits o → (∀ c ∈ s.objs, sh.Apart o c) → sh.SameOn s.objs s.mem mem →
      Step sh fits s (.alloc o) ⟨o ::ₘ s.objs, mem⟩
  | free {s o mem} : o ∈ s.objs → sh.SameOn (s.objs.erase o) s.mem mem →
      Step sh fits s (.free o) ⟨s.objs.erase o, mem⟩
  | write {s o i v mem} : o ∈ s.objs → i < sh.size o → mem (sh.addr o i) = v →
      (∀ c ∈ s.objs, ∀ a, sh.Cell c a → a ≠ sh.addr o i → mem a = s.mem a) →
      Step sh fits s (.write o i v) ⟨s.objs, mem⟩
  | resize {s o o' mem} : o ∈ s.objs → fits o' → (∀ c ∈ s.objs.erase o, sh.Apart o' c) →
      (∀ i < min (sh.size o) (sh.size o'), mem (sh.addr o' i) = s.mem (sh.addr o i)) →
      sh.SameOn (s.objs.erase o) s.mem mem →
      Step sh fits s (.resize o o') ⟨o' ::ₘ s.objs.erase o, mem⟩
  | silent {s mem} : sh.SameOn s.objs s.mem mem → Step sh fits s .silent ⟨s.objs, mem⟩

/-- No two objects have a cell in common. -/
def Separate (sh : Shape α A) (objs : Multiset α) : Prop :=
  ∀ o ∈ objs, ∀ c ∈ objs.erase o, sh.Apart o c

variable {sh : Shape α A} {fits : α → Prop} {objs objs' : Multiset α} {o : α}
  {s t : State α A V} {e : Event α V}

namespace Separate

theorem zero : Separate sh (0 : Multiset α) := fun o ho => absurd ho (Multiset.notMem_zero o)

theorem cons (separate : Separate sh objs) (apart : ∀ c ∈ objs, sh.Apart o c) :
    Separate sh (o ::ₘ objs) := by
  intro x hx c hc
  by_cases hxo : x = o
  · subst hxo
    rw [Multiset.erase_cons_head] at hc
    exact apart c hc
  · have hold : x ∈ objs := (Multiset.mem_cons.mp hx).resolve_left hxo
    rw [Multiset.erase_cons_tail_of_mem hold] at hc
    obtain rfl | hc := Multiset.mem_cons.mp hc
    · exact (apart x hold).symm
    · exact separate x hold c hc

theorem mono (separate : Separate sh objs) (hle : objs' ≤ objs) : Separate sh objs' :=
  fun o ho c hc => separate o (Multiset.mem_of_le hle ho) c
    (Multiset.mem_of_le (Multiset.erase_le_erase o hle) hc)

theorem head (separate : Separate sh (o ::ₘ objs)) : ∀ c ∈ objs, sh.Apart o c := fun c hc =>
  separate o (Multiset.mem_cons_self _ _) c (by rwa [Multiset.erase_cons_head])

end Separate

theorem Step.separate (hstep : Step sh fits s e t) (separate : Separate sh s.objs) :
    Separate sh t.objs := by
  cases hstep with
  | alloc _ apart _ => exact separate.cons apart
  | free _ _ => exact separate.mono (Multiset.erase_le _ _)
  | write _ _ _ _ => exact separate
  | resize _ _ apart _ _ => exact (separate.mono (Multiset.erase_le _ _)).cons apart
  | silent _ => exact separate

/-- An object that an event does not touch stays, with its contents. -/
theorem Step.kept (hstep : Step sh fits s e t) (separate : Separate sh s.objs) (ho : o ∈ s.objs)
    (untouched : ¬e.Touches o) : o ∈ t.objs ∧ ∀ a, sh.Cell o a → t.mem a = s.mem a := by
  have stays : ∀ {c}, c ≠ o → o ∈ s.objs.erase c := fun hne =>
    (Multiset.mem_erase_of_ne hne.symm).mpr ho
  cases hstep with
  | alloc _ _ same => exact ⟨Multiset.mem_cons_of_mem ho, same o ho⟩
  | free _ same => exact ⟨stays untouched, same o (stays untouched)⟩
  | @write c i v mem hc hi _ same =>
      refine ⟨ho, fun a ha => same o ho a ha ?_⟩
      rintro rfl
      exact separate c hc o (stays untouched) _ ⟨i, hi, rfl⟩ ha
  | resize _ _ _ _ same =>
      exact ⟨Multiset.mem_cons_of_mem (stays untouched), same o (stays untouched)⟩
  | silent same => exact ⟨ho, same o ho⟩

/-- What happens to some objects happens to them beside others. -/
theorem Step.frame (rest : Multiset α) (hstep : Step sh fits s e t)
    (same : sh.SameOn rest s.mem t.mem) (apart : ∀ o ∈ t.objs, ∀ c ∈ rest, sh.Apart o c) :
    Step sh fits ⟨s.objs + rest, s.mem⟩ e ⟨t.objs + rest, t.mem⟩ := by
  cases hstep with
  | alloc hfits hobjs hsame =>
      rw [Multiset.cons_add]
      refine .alloc hfits (fun c hc => ?_) (hsame.add same)
      exact (Multiset.mem_add.mp hc).elim (hobjs c) (apart _ (Multiset.mem_cons_self _ _) c)
  | @free o mem ho hsame =>
      rw [← Multiset.erase_add_left_pos _ ho]
      refine .free (Multiset.mem_add.mpr (.inl ho)) ?_
      rw [Multiset.erase_add_left_pos _ ho]
      exact hsame.add same
  | write ho hi hv hsame =>
      refine .write (Multiset.mem_add.mpr (.inl ho)) hi hv fun c hc a ha hne => ?_
      exact (Multiset.mem_add.mp hc).elim (fun hc => hsame c hc a ha hne) fun hc => same c hc a ha
  | @resize o o' mem ho hfits hobjs hcopy hsame =>
      rw [Multiset.cons_add, ← Multiset.erase_add_left_pos _ ho]
      refine .resize (Multiset.mem_add.mpr (.inl ho)) hfits (fun c hc => ?_) hcopy ?_
      · rw [Multiset.erase_add_left_pos _ ho] at hc
        exact (Multiset.mem_add.mp hc).elim (hobjs c) (apart _ (Multiset.mem_cons_self _ _) c)
      · rw [Multiset.erase_add_left_pos _ ho]
        exact hsame.add same
  | silent hsame => exact .silent (hsame.add same)

variable {σ β : Type*} {step : σ → β → σ → Prop} {answers : σ → β → Event α V → Prop}
  {view : σ → State α A V} {x y : σ}

/-- A move of a system, and the event of the store that answers it. -/
structure Answered (step : σ → β → σ → Prop) (answers : σ → β → Event α V → Prop)
    (view : σ → State α A V) (sh : Shape α A) (fits : α → Prop) (x : σ) (l : β × Event α V)
    (y : σ) : Prop where
  step : step x l.1 y
  answers : answers x l.1 l.2
  event : Step sh fits (view x) l.2 (view y)

/-- A system refines the store if each of its steps is answered by one of the store. -/
theorem run_refines {Ok : σ → Prop} {moves : List β} (run : Run step x moves y) (start : Ok x)
    (keeps : ∀ {u m v}, Ok u → step u m v → Ok v)
    (answered : ∀ {u m v}, Ok u → step u m v →
      ∃ e, answers u m e ∧ Step sh fits (view u) e (view v)) :
    Ok y ∧ ∃ labels, labels.map Prod.fst = moves ∧
      Run (Answered step answers view sh fits) x labels y := by
  induction run with
  | nil => exact ⟨start, [], rfl, .nil⟩
  | @snoc moves m u v _ hstep ih =>
      obtain ⟨ok, labels, rfl, hrun⟩ := ih
      obtain ⟨e, hans, hstore⟩ := answered ok hstep
      have last : Answered step answers view sh fits u (m, e) v := ⟨hstep, hans, hstore⟩
      refine ⟨keeps ok hstep, labels ++ [(m, e)], ?_, hrun.snoc last⟩
      rw [List.map_append, List.map_singleton]

end

end Store
