import Mathlib.Data.List.Nodup
import Mathlib.Logic.Function.Basic

/-!
# Segments of singly linked lists

`Segment next a l b` says that following the links from `a` visits the nodes of
`l` in this order and then arrives at `b`. A null terminated list is a segment
that ends in null.
-/

variable {α : Type*}

/-- From `a` through the nodes of `l` to `b`. -/
def Segment (next : α → α) : α → List α → α → Prop
  | a, [], b => a = b
  | a, x :: rest, b => a = x ∧ Segment next (next x) rest b

instance [DecidableEq α] (next : α → α) :
    (a : α) → (l : List α) → (b : α) → Decidable (Segment next a l b)
  | a, [], b => inferInstanceAs (Decidable (a = b))
  | a, x :: rest, b =>
      have := instDecidableSegmentOfDecidableEq next (next x) rest b
      inferInstanceAs (Decidable (a = x ∧ Segment next (next x) rest b))

namespace Segment

variable {next next' : α → α} {a b c x : α} {l l' : List α}

@[simp] theorem nil_iff : Segment next a [] b ↔ a = b := Iff.rfl

@[simp] theorem cons_iff : Segment next a (x :: l) b ↔ a = x ∧ Segment next (next x) l b := Iff.rfl

/-- A segment starts at its first node, or at its end. -/
theorem start_eq (h : Segment next a l b) (h' : Segment next' c l b) : a = c := by
  cases l with
  | nil => exact Eq.trans h (Eq.symm h')
  | cons x l => exact h.1.trans h'.1.symm

theorem append_iff :
    Segment next a (l ++ l') c ↔ ∃ b, Segment next a l b ∧ Segment next b l' c := by
  induction l generalizing a with
  | nil => simp
  | cons x l ih => simp [ih, and_assoc]

theorem concat_iff : Segment next a (l ++ [x]) b ↔ Segment next a l x ∧ next x = b := by
  rw [append_iff]
  constructor
  · rintro ⟨y, hl, rfl, hb⟩
    exact ⟨hl, hb⟩
  · rintro ⟨hl, hb⟩
    exact ⟨x, hl, rfl, hb⟩

/-- Links outside the segment do not matter. -/
theorem congr (h : Segment next a l b) (same : ∀ x ∈ l, next' x = next x) :
    Segment next' a l b := by
  induction l generalizing a with
  | nil => exact h
  | cons x l ih =>
      obtain ⟨rfl, h⟩ := h
      refine ⟨rfl, ih ?_ fun y hy => same y (List.mem_cons_of_mem a hy)⟩
      rwa [same a List.mem_cons_self]

/-- The last link of a segment may be redirected. -/
theorem redirect [DecidableEq α] (h : Segment next a (l ++ [x]) b) (nodup : (l ++ [x]).Nodup)
    (c : α) : Segment (Function.update next x c) a (l ++ [x]) c := by
  rw [concat_iff] at h ⊢
  refine ⟨h.1.congr fun y hy => Function.update_of_ne ?_ c next, Function.update_self x c next⟩
  rintro rfl
  exact List.disjoint_of_nodup_append nodup hy (List.mem_singleton_self y)

/-- A segment that does not start at its end has a first node. -/
theorem exists_cons (h : Segment next a l b) (hab : a ≠ b) :
    ∃ rest, l = a :: rest ∧ Segment next (next a) rest b := by
  cases l with
  | nil => exact absurd h hab
  | cons x rest =>
      obtain ⟨rfl, h⟩ := h
      exact ⟨rest, rfl, h⟩

/-- The first `n` nodes from `a` on. -/
def follow (next : α → α) : Nat → α → List α
  | 0, _ => []
  | n + 1, a => a :: follow next n (next a)

theorem follow_length (h : Segment next a l b) : follow next l.length a = l := by
  induction l generalizing a with
  | nil => rfl
  | cons x l ih =>
      obtain ⟨rfl, h⟩ := h
      rw [List.length_cons, follow, ih h]

end Segment
