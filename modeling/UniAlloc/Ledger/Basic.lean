import Mathlib.Algebra.BigOperators.Group.Finset.Basic
import Mathlib.Algebra.Order.Group.Multiset
import Mathlib.Data.Multiset.Bind
import Mathlib.Data.Multiset.UnionInter

/-!
# Ledgers of holdings

Several holders each hold a multiset, and what they hold together is a sum over
the holders. The rules below update one holder at a time, and read disjointness
off a total that has no repetitions.
-/

namespace Ledger

variable {ι β γ M : Type*}

section Total

variable [DecidableEq ι] [AddCommMonoid M]

/-- Replacing the record of one holder exchanges its share of the total. -/
theorem sum_update (s : Finset ι) (f : ι → γ → M) (g : ι → γ) {i : ι} (hi : i ∈ s) (x : γ) :
    (∑ j ∈ s, f j (Function.update g i x j)) + f i (g i) = (∑ j ∈ s, f j (g j)) + f i x := by
  have hrest : ∑ j ∈ s.erase i, f j (Function.update g i x j) = ∑ j ∈ s.erase i, f j (g j) :=
    Finset.sum_congr rfl fun j hj => by rw [Function.update_of_ne (Finset.ne_of_mem_erase hj)]
  rw [← Finset.add_sum_erase s _ hi, ← Finset.add_sum_erase s (fun j => f j (g j)) hi, hrest,
    Function.update_self]
  ac_rfl

end Total

section Nodup

variable {s : Multiset β} {f : β → Multiset γ} {b c : β} {x : γ}

theorem disjoint_of_nodup_cons (h : ((b ::ₘ s).bind f).Nodup) (hc : c ∈ s) :
    Disjoint (f b) (f c) := by
  rw [Multiset.cons_bind] at h
  have hdisj := (Multiset.nodup_add.mp h).2.2
  rw [Multiset.disjoint_left] at hdisj ⊢
  exact fun hx hx' => hdisj hx (Multiset.mem_bind.mpr ⟨c, hc, hx'⟩)

/-- In a total without repetitions a shared element identifies the holder. -/
theorem eq_of_shared (h : (s.bind f).Nodup) (hb : b ∈ s) (hc : c ∈ s) (hxb : x ∈ f b)
    (hxc : x ∈ f c) : b = c := by
  obtain ⟨rest, rfl⟩ := Multiset.exists_cons_of_mem hb
  rcases Multiset.mem_cons.mp hc with rfl | hc
  · rfl
  · exact absurd hxc (Multiset.disjoint_left.mp (disjoint_of_nodup_cons h hc) hxb)

/-- In a total without repetitions no holding that is not empty occurs twice. -/
theorem nodup_of_nodup_bind (h : (s.bind f).Nodup) (hne : ∀ b ∈ s, f b ≠ 0) : s.Nodup := by
  induction s using Multiset.induction_on with
  | empty => exact Multiset.nodup_zero
  | cons b s ih =>
      refine Multiset.nodup_cons.mpr ⟨fun hb => ?_, ?_⟩
      · have := disjoint_of_nodup_cons h hb
        exact hne b (Multiset.mem_cons_self b s) (disjoint_self.mp this)
      · rw [Multiset.cons_bind] at h
        exact ih (Multiset.nodup_add.mp h).2.1 fun c hc => hne c (Multiset.mem_cons_of_mem hc)

end Nodup

end Ledger
