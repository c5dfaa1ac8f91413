import UniAlloc.Slab.Register
import Mathlib.Data.Set.Insert

/-!
# The contract of the page backend

What the slab allocator relies on when it takes page runs from the backend and
gives them back. `Holds` relates the state of the backend, the memory and the
radix tree to the set of runs that are out; the backend leaves these alone, and
their holders may use their memory and their radix entries.
-/

namespace UniAlloc

open Radix FreeList

/-- A run the radix tree can address: whole pages of user space. -/
structure FreeList.Block.Placed (b : Block) : Prop where
  aligned : b.ptr % PG_SIZE = 0
  pos : 0 < b.ptr
  num_pos : 0 < b.num
  bound : b.ptr / PG_SIZE + b.num ≤ 2 ^ 35

namespace Slab

/-- A page of one of the runs. -/
def HeldPage (held : Set Block) (p : Nat) : Prop := ∃ b ∈ held, p ∈ b.pages

/-- Memory and radix entries agree on the pages of the runs. -/
structure SameOn (held : Set Block) (mem mem' : Mem) (tree tree' : RadixTree) : Prop where
  mem : ∀ a, HeldPage held (a / PG_SIZE) → mem' a = mem a
  entry : ∀ p, HeldPage held p → tree'.entry p = tree.entry p

/-- The pages backend keeps its promises. -/
structure Lawful {σ : Type} (B : PageBackend σ)
    (Holds : σ → Mem → RadixTree → Set Block → Prop) : Prop where
  placed {s mem tree held b} : Holds s mem tree held → b ∈ held → b.Placed
  apart {s mem tree held b c} : Holds s mem tree held → b ∈ held → c ∈ held → b ≠ c →
    ∀ p ∈ b.pages, p ∉ c.pages
  /-- The tags of the backend vanish under the mask of the slab allocator. -/
  tags {s mem tree held p} : Holds s mem tree held → ¬HeldPage held p →
    tree.entry p % 2 ^ 48 = 0
  /-- The holders use their memory and their entries. -/
  use {s mem tree held mem' tree'} : Holds s mem tree held →
    (∀ a, ¬HeldPage held (a / PG_SIZE) → mem' a = mem a) →
    (∀ p, tree'.entry p = tree.entry p ∨
      HeldPage held p ∧ 0 ≤ tree'.entry p ∧ tree'.entry p < 2 ^ 48) →
    Holds s mem' tree' held
  alloc {s mem tree held num ptr s' mem' tree'} : Holds s mem tree held → 0 < num →
    B.alloc s mem tree (PAGE_SIZE * num) = some (ptr, s', mem', tree') →
    Holds s' mem' tree' (insert ⟨ptr, num⟩ held) ∧ ⟨ptr, num⟩ ∉ held ∧
      SameOn held mem mem' tree tree' ∧ ∀ p ∈ (⟨ptr, num⟩ : Block).pages, tree'.entry p = 0
  /-- A run is given back once its entries have been cleared. -/
  dealloc {s mem tree held b} : Holds s mem tree held → b ∈ held →
    (∀ p ∈ b.pages, tree.entry p = 0) →
    ∃ s' mem' tree', B.dealloc s mem tree b.ptr (PAGE_SIZE * b.num) = some (s', mem', tree') ∧
      Holds s' mem' tree' (held \ {b}) ∧ SameOn (held \ {b}) mem mem' tree tree'

/-- A backend that only carves, as `BUMP` does: it hands out the pages of the region
`[low, high)` from the top and keeps what it gets back. -/
def carving : PageBackend (Nat × Nat) where
  alloc s mem tree size :=
    if s.1 + size ≤ s.2 then some (s.2 - size, (s.1, s.2 - size), mem, tree) else none
  dealloc s mem tree _ _ := some (s, mem, tree)

/-- The runs lie above the rest of the region. -/
structure Carved (s : Nat × Nat) (mem : Mem) (tree : RadixTree) (held : Set Block) : Prop where
  low : s.1 % PG_SIZE = 0 ∧ 0 < s.1
  high : s.2 % PG_SIZE = 0 ∧ s.2 / PG_SIZE ≤ 2 ^ 35
  placed : ∀ b ∈ held, b.Placed ∧ s.2 ≤ b.ptr
  apart : ∀ b ∈ held, ∀ c ∈ held, b ≠ c → ∀ p ∈ b.pages, p ∉ c.pages
  cleared : ∀ p, ¬HeldPage held p → tree.entry p = 0

theorem carved_empty {low high : Nat} (mem : Mem) (hlow : low % PG_SIZE = 0 ∧ 0 < low)
    (hhigh : high % PG_SIZE = 0 ∧ high / PG_SIZE ≤ 2 ^ 35) :
    Carved (low, high) mem TreeNode.zeroed ∅ :=
  ⟨hlow, hhigh, by simp, by simp, fun _ _ => rfl⟩

/-- A region of `4096` pages from which nothing has been carved. -/
theorem carved_region : Carved (0x1000000, 0x2000000) (fun _ => 0) TreeNode.zeroed ∅ :=
  carved_empty _ (by decide) (by decide)

theorem carving_lawful : Lawful carving Carved where
  placed h hb := (h.placed _ hb).1
  apart h hb hc hbc := h.apart _ hb _ hc hbc
  tags h hp := by rw [h.cleared _ hp, Int.zero_emod]
  use h _ hentry :=
    { h with
      cleared := fun p hp => by
        obtain hsame | ⟨hheld, -⟩ := hentry p
        · rw [hsame, h.cleared p hp]
        · exact absurd hheld hp }
  alloc {s mem tree held num ptr s' mem' tree'} h hnum hcall := by
    obtain ⟨hfits, hcall⟩ := Option.ite_none_right_eq_some.mp hcall
    cases hcall
    obtain ⟨hlow, hhigh, hplaced, hapart, hcleared⟩ := h
    simp only [PG_SIZE, PAGE_SIZE] at hlow hhigh hfits hplaced ⊢
    have below : ∀ b ∈ held, ∀ p ∈ b.pages,
        p ∉ (⟨s.2 - 4096 * num, num⟩ : Block).pages := by
      intro b hb p hp hp'
      have := (hplaced b hb).2
      simp only [Block.mem_pages, PG_SIZE] at hp hp'
      omega
    have fresh : ∀ b ∈ held, ⟨s.2 - 4096 * num, num⟩ ≠ b := by
      rintro b hb rfl
      refine below _ hb ((s.2 - 4096 * num) / PG_SIZE) ?_ ?_ <;>
        · simp only [Block.mem_pages, PG_SIZE]
          omega
    refine ⟨⟨hlow, ?_, ?_, ?_, ?_⟩, fun hmem => fresh _ hmem rfl, ⟨fun _ _ => rfl, fun _ _ => rfl⟩,
      fun p hp => ?_⟩
    · simp only [PG_SIZE]
      omega
    · rintro b (rfl | hb)
      · refine ⟨⟨?_, ?_, hnum, ?_⟩, le_rfl⟩ <;> simp only [PG_SIZE] <;> omega
      · have := hplaced b hb
        exact ⟨this.1, by omega⟩
    · rintro b (rfl | hb) c (rfl | hc) hbc p hp hp'
      · exact hbc rfl
      · exact below c hc p hp' hp
      · exact below b hb p hp hp'
      · exact hapart b hb c hc hbc p hp hp'
    · exact fun p hp => hcleared p fun ⟨b, hb, hpb⟩ => hp ⟨b, Set.mem_insert_of_mem _ hb, hpb⟩
    · exact hcleared p fun ⟨b, hb, hpb⟩ => below b hb p hpb hp
  dealloc {s mem tree held b} h hb hzero := by
    refine ⟨_, _, _, rfl, ⟨h.low, h.high, fun c hc => h.placed c hc.1,
      fun c hc e he => h.apart c hc.1 e he.1, fun p hp => ?_⟩, ⟨fun _ _ => rfl, fun _ _ => rfl⟩⟩
    by_cases hpb : p ∈ b.pages
    · exact hzero p hpb
    · refine h.cleared p fun ⟨c, hc, hpc⟩ => hp ⟨c, ⟨hc, ?_⟩, hpc⟩
      rintro rfl
      exact hpb hpc

/-- The pieces in which a run is registered stay below one bottom node. -/
def InsertFits (b : Block) : Prop :=
  PieceFits (b.ptr / PAGE_SIZE) (2 ^ 16 - b.ptr / PAGE_SIZE % 2 ^ 16) b.num

/-- So do the pieces in which it is cleared. -/
def RemoveFits (b : Block) : Prop :=
  PieceFits (b.ptr / PAGE_SIZE) (4096 - b.ptr / PAGE_SIZE % 4096) b.num

/-- The run can be registered and cleared. -/
def RadixFits (b : Block) : Prop := InsertFits b ∧ RemoveFits b

/-- Runs of up to `4097` pages can be anywhere. -/
theorem radixFits_of_le {b : Block} (h : b.num ≤ 4097) : RadixFits b :=
  ⟨pieceFits_insert h, pieceFits_remove h⟩

section Radix

variable {a idx num : Nat}

theorem bound_pages (ha : (⟨a, num⟩ : Block).Placed) :
    a / 4096 + num ≤ 2 ^ 36 :=
  ha.bound.trans (by norm_num)

theorem handleRdTreeInsert_spec (tree : RadixTree) (idx : Nat) (ha : (⟨a, num⟩ : Block).Placed)
    (fits : InsertFits ⟨a, num⟩) :
    ∃ tree', SCAllocator.handleRdTreeInsert num tree idx a = some tree' ∧
      ∀ p, tree'.entry p =
        if p ∈ (⟨a, num⟩ : Block).pages then (idx : Int) else tree.entry p := by
  simp only [Block.mem_pages, handleRdTreeInsert_eq]
  exact registerRun_spec tree idx ha.aligned ha.num_pos (bound_pages ha) fits

theorem handleRdTreeInsert_eq_none (tree : RadixTree) (idx : Nat)
    (ha : (⟨a, num⟩ : Block).Placed)
    (misfit : ¬InsertFits ⟨a, num⟩) :
    SCAllocator.handleRdTreeInsert num tree idx a = none :=
  registerRun_eq_none tree idx ha.aligned ha.num_pos (bound_pages ha) misfit

theorem handleRdTreeRemove_spec (tree : RadixTree) (self : SCAllocator) (hnum : self.pgNum = num)
    (ha : (⟨a, num⟩ : Block).Placed) (fits : RemoveFits ⟨a, num⟩) :
    ∃ tree', self.handleRdTreeRemove tree a = some tree' ∧
      ∀ p, tree'.entry p = if p ∈ (⟨a, num⟩ : Block).pages then 0 else tree.entry p := by
  simp only [Block.mem_pages]
  exact unregisterRun_spec tree self hnum ha.aligned ha.num_pos (bound_pages ha) fits

theorem handleRdTreeRemove_eq_none (tree : RadixTree) (self : SCAllocator)
    (hnum : self.pgNum = num) (ha : (⟨a, num⟩ : Block).Placed)
    (held : ∀ p ∈ (⟨a, num⟩ : Block).pages, tree.entry p ≠ 0) (misfit : ¬RemoveFits ⟨a, num⟩) :
    self.handleRdTreeRemove tree a = none := by
  refine unregisterRun_eq_none tree self hnum ha.aligned ha.num_pos (bound_pages ha) ?_ misfit
  exact fun p hle hlt => held p (Block.mem_pages.mpr ⟨hle, hlt⟩)

end Radix

end Slab

end UniAlloc
