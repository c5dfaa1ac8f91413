import UniAlloc.Buddy.System

/-!
# The lowest free range

What `allocate` returns, in terms of addresses: the lowest range of the order that is
aligned to its own size, lies in the heap and meets no live block.
-/

namespace UniAlloc.Buddy

open Aligned (Free)

variable {B M d a : Nat} {s : State B M}

/-- The range of the order at `a` is aligned to its size, lies in the heap and meets no live
block. -/
def State.FreeRange (s : State B M) (d a : Nat) : Prop :=
  2 ^ (B + d) ∣ a ∧ a + 2 ^ (B + d) ≤ 2 ^ (B + M) ∧
    ∀ p ∈ s.live, a + 2 ^ (B + d) ≤ p.1 ∨ p.1 + 2 ^ (B + p.2) ≤ a

/-- A range in the heap is a node of the tree. -/
theorem inTree_iff {i : Nat} :
    InTree M ⟨d, i⟩ ↔ i * 2 ^ (B + d) + 2 ^ (B + d) ≤ 2 ^ (B + M) := by
  have hpos := Nat.two_pow_pos (B + d)
  constructor
  · rintro ⟨hd, hi⟩
    have hheap : 2 ^ (B + M) = 2 ^ (M - d) * 2 ^ (B + d) := by
      rw [← Nat.pow_add]
      congr 1
      simp only at hd
      omega
    rw [hheap, ← Nat.succ_mul]
    exact Nat.mul_le_mul_right _ hi
  · intro hle
    have hd : d ≤ M := by
      have hle : 2 ^ (B + d) ≤ 2 ^ (B + M) := by omega
      have := (Nat.pow_le_pow_iff_right Nat.one_lt_two).mp hle
      omega
    refine ⟨hd, ?_⟩
    have hheap : 2 ^ (B + M) = 2 ^ (M - d) * 2 ^ (B + d) := by
      rw [← Nat.pow_add]
      congr 1
      omega
    rw [hheap, ← Nat.succ_mul] at hle
    exact Nat.le_of_mul_le_mul_right hle hpos

theorem apart_iff_range {b c : Aligned.Block} : b.Apart c ↔
    b.pos * 2 ^ (B + b.order) + 2 ^ (B + b.order) ≤ c.pos * 2 ^ (B + c.order) ∨
      c.pos * 2 ^ (B + c.order) + 2 ^ (B + c.order) ≤ b.pos * 2 ^ (B + b.order) := by
  have hscale (b c : Aligned.Block) :
      (b.pos + 1) * 2 ^ b.order ≤ c.pos * 2 ^ c.order ↔
        b.pos * 2 ^ (B + b.order) + 2 ^ (B + b.order) ≤ c.pos * 2 ^ (B + c.order) := by
    rw [← Nat.mul_le_mul_left_iff (Nat.two_pow_pos B), Nat.pow_add, Nat.pow_add]
    ring_nf
  rw [Aligned.Block.apart_iff_le, hscale, hscale]

/-- The free ranges are the free nodes. -/
theorem Inv.freeRange_iff (h : Inv s) :
    s.FreeRange d a ↔ ∃ i, a = i * 2 ^ (B + d) ∧ InTree M ⟨d, i⟩ ∧ Free s.blocks ⟨d, i⟩ := by
  have hfree (i : Nat) : Free s.blocks ⟨d, i⟩ ↔ ∀ p ∈ s.live,
      i * 2 ^ (B + d) + 2 ^ (B + d) ≤ p.1 ∨ p.1 + 2 ^ (B + p.2) ≤ i * 2 ^ (B + d) := by
    rw [Free, State.blocks, Finset.forall_mem_image]
    refine forall₂_congr fun p hp => ?_
    have hp := h.aligned p hp
    rw [Nat.add_comm p.2 B] at hp
    rw [apart_iff_range (B := B), hp]
    rfl
  constructor
  · rintro ⟨⟨i, rfl⟩, hheap, hlive⟩
    rw [Nat.mul_comm] at hheap hlive ⊢
    exact ⟨i, rfl, inTree_iff.mpr hheap, (hfree i).mpr hlive⟩
  · rintro ⟨i, rfl, hin, hf⟩
    exact ⟨Nat.dvd_mul_left _ _, inTree_iff.mp hin, (hfree i).mp hf⟩

/-- A live block lies in the heap. -/
theorem Inv.live_le (h : Inv s) {p : Nat × Nat} (hp : p ∈ s.live) :
    p.1 + 2 ^ (B + p.2) ≤ 2 ^ (B + M) := by
  have hin := h.tiling.inTree _ (Finset.mem_image_of_mem _ hp)
  have haddr := h.aligned p hp
  rw [Nat.add_comm p.2 B] at haddr
  rw [haddr]
  exact inTree_iff.mp hin

theorem Inv.allocate_spec (h : Inv s) (hM : M < 63) (d : Nat) :
    ((s.tree.allocate d).1 = none ↔ ∀ a, ¬s.FreeRange d a) ∧
      ((s.tree.allocate d).1 = none → (s.tree.allocate d).2 = s.tree) ∧
      ∀ ptr, (s.tree.allocate d).1 = some ptr → IsLeast {a | s.FreeRange d a} ptr := by
  refine ⟨?_, fun hnone => ?_, fun ptr hsome => ?_⟩
  · rw [BuddyTree.allocate_eq_none_iff h.exact h.tiling, not_exists]
    constructor
    · intro hnone a ha
      obtain ⟨i, -, hi⟩ := h.freeRange_iff.mp ha
      exact hnone i hi
    · intro hnone i hi
      exact hnone _ (h.freeRange_iff.mpr ⟨i, rfl, hi⟩)
  · exact BuddyTree.allocate_none (Prod.ext hnone rfl)
  · obtain ⟨i, rfl, hin, hfree, hfirst, -⟩ :=
      BuddyTree.allocate_some h.exact h.tiling hM (Prod.ext hsome rfl)
    rw [Nat.add_comm d B]
    refine ⟨h.freeRange_iff.mpr ⟨i, rfl, hin, hfree⟩, fun a ha => ?_⟩
    obtain ⟨j, rfl, -, hj⟩ := h.freeRange_iff.mp ha
    exact Nat.mul_le_mul_right _ (hfirst j hj)

/-- In every reachable state `allocate` returns the lowest range of the order that is aligned to
its size, lies in the heap and is disjoint from the live blocks, and it refuses exactly when
there is none, with the tree unchanged. -/
theorem allocate_lowest {s : State 12 22} (h : Reached s) (d : Nat) :
    ((s.tree.allocate d).1 = none ↔ ∀ a, ¬s.FreeRange d a) ∧
      ((s.tree.allocate d).1 = none → (s.tree.allocate d).2 = s.tree) ∧
      ∀ ptr, (s.tree.allocate d).1 = some ptr → IsLeast {a | s.FreeRange d a} ptr :=
  h.inv.allocate_spec (by omega) d

/-- With the first two pages taken, the lowest page is the third. -/
theorem allocate_lowest_third : ∃ s : State 12 22, s.live = {(0, 1)} ∧
    IsLeast {a | s.FreeRange 0 a} 0x2000 := by
  obtain ⟨tree₁, tree₂, h₁, h₂⟩ := allocate_pages
  have hreached : Reached ⟨tree₁, insert (0, 1) ∅⟩ :=
    ⟨_, _, ⟨_, rfl⟩, .single (.allocated h₁)⟩
  refine ⟨_, rfl, (allocate_lowest hreached 0).2.2 0x2000 ?_⟩
  rw [h₂]

end UniAlloc.Buddy
