import UniAlloc.FixedHeap.Runs

/-!
# The page table is accessed within its bounds

An access outside of the page table is the probe behind a block that ends where the heap ends:
the page behind it has the number `page_count`, which is one more than the last entry.
-/

namespace UniAlloc.FixedHeap

open FreeList (PG_SIZE flag)
open MetaBump (Sizes fixedSizes)
open Radix (pageKey)
open Slab (PAGE_SIZE PageBumpAlloc)

namespace Heap

/-- The page table stays where it is and the log of its accesses only grows. -/
structure Grows (h h' : Heap) : Prop where
  array : h'.array = h.array
  bump : h'.bump = h.bump
  accessed : h.accessed <:+ h'.accessed

variable {h h' : Heap} {addr idx n : Nat} {v : Int} {ans : Option Nat}

namespace Grows

theorem refl (h : Heap) : Grows h h := ⟨rfl, rfl, List.suffix_rfl⟩

theorem trans {h₁ : Heap} (hg : Grows h h₁) (hg' : Grows h₁ h') : Grows h h' :=
  ⟨hg'.array.trans hg.array, hg'.bump.trans hg.bump, hg.accessed.trans hg'.accessed⟩

theorem getMut (h : Heap) (addr : Nat) : Grows h (h.getMut addr).2 :=
  ⟨rfl, rfl, List.suffix_append _ _⟩

theorem insert (hcall : h.insert addr v n = some h') : Grows h h' := by
  obtain ⟨mem, -, hcall⟩ := Option.bind_eq_some_iff.mp hcall
  cases hcall
  exact ⟨rfl, rfl, List.suffix_append _ _⟩

theorem remove (hcall : h.remove addr n = some h') : Grows h h' := insert hcall

theorem insertNew (hcall : h.insertNew idx addr = some h') : Grows h h' := by
  obtain ⟨ptr, -, hcall⟩ := Option.bind_eq_some_iff.mp hcall
  rw [insertOne] at hcall
  split at hcall
  · cases hcall
  · obtain ⟨mem, -, hcall⟩ := Option.bind_eq_some_iff.mp hcall
    obtain ⟨h₁, hcall₁, hcall⟩ := Option.bind_eq_some_iff.mp hcall
    obtain ⟨h₂, hcall₂, hcall⟩ := Option.bind_eq_some_iff.mp hcall
    cases hcall
    have hg₁ := insert hcall₁
    have hg₂ := insert hcall₂
    exact ⟨hg₂.array.trans hg₁.array, hg₂.bump.trans hg₁.bump,
      hg₁.accessed.trans hg₂.accessed⟩

theorem removeSpecOne (hcall : h.removeSpecOne idx addr = some (h', ans)) : Grows h h' := by
  rw [Heap.removeSpecOne] at hcall
  split at hcall
  · cases hcall
  have hget := getMut h addr
  dsimp only at hcall
  split at hcall
  · obtain ⟨target, -, hcall⟩ := Option.bind_eq_some_iff.mp hcall
    split at hcall
    · split at hcall
      · obtain ⟨h₁, hcall₁, hcall⟩ := Option.bind_eq_some_iff.mp hcall
        obtain ⟨h₂, hcall₂, hcall⟩ := Option.bind_eq_some_iff.mp hcall
        obtain ⟨⟨mem, newHead⟩, -, hcall⟩ := Option.bind_eq_some_iff.mp hcall
        cases hcall
        have hg := (hget.trans (remove hcall₁)).trans (remove hcall₂)
        exact ⟨hg.array, hg.bump, hg.accessed⟩
      · cases hcall
        exact hget
    · cases hcall
      exact hget
  · cases hcall
    exact hget

theorem mergePrev {ptr origin p i : Nat} (hcall : h.mergePrev ptr origin = some (h', p, i)) :
    Grows h h' := by
  rw [Heap.mergePrev] at hcall
  dsimp only at hcall
  have hget := getMut h (PageBump.wrappingSub ptr PG_SIZE)
  split at hcall
  · obtain ⟨⟨h₁, prev⟩, hcall₁, hcall⟩ := Option.bind_eq_some_iff.mp hcall
    dsimp only at hcall
    have hg := hget.trans (removeSpecOne hcall₁)
    split at hcall
    · cases hcall
      exact hg
    · cases hcall
      exact hg
  · cases hcall
    exact hget

/-- The probe behind the block is logged. -/
theorem mergeNext {ptr origin i j : Nat} (hcall : h.mergeNext ptr origin i = some (h', j)) :
    Grows (h.getMut (ptr + (origin + 1) * PG_SIZE)).2 h' := by
  rw [Heap.mergeNext] at hcall
  dsimp only at hcall
  split at hcall
  · obtain ⟨⟨h₁, next⟩, hcall₁, hcall⟩ := Option.bind_eq_some_iff.mp hcall
    dsimp only at hcall
    have hg := removeSpecOne hcall₁
    split at hcall
    · cases hcall
      exact hg
    · cases hcall
      exact hg
  · cases hcall
    exact refl _

end Grows

/-- `free` accesses the entry of the page behind the block. -/
theorem free_accessed {ptr size : Nat} (hcall : h.free ptr size = some h') :
    Grows h h' ∧ h.array.start (pageKey (ptr + (originSize size + 1) * PG_SIZE) >>> 16) ∈
      h'.accessed := by
  rw [Heap.free] at hcall
  obtain ⟨⟨h₁, finalPtr, finalIdx⟩, hprev, hcall⟩ := Option.bind_eq_some_iff.mp hcall
  dsimp only at hcall
  obtain ⟨⟨h₂, finalIdx'⟩, hnext, hcall⟩ := Option.bind_eq_some_iff.mp hcall
  dsimp only at hcall
  have hg := Grows.mergePrev hprev
  have hg' := Grows.mergeNext hnext
  have hmem : h.array.start (pageKey (ptr + (originSize size + 1) * PG_SIZE) >>> 16) ∈
      h₂.accessed := by
    refine hg'.accessed.subset ?_
    rw [← hg.array]
    exact List.mem_append_left _ (by simp [ArrayNode.indices])
  have hgrows : Grows h h₂ := (hg.trans (.getMut _ _)).trans hg'
  split at hcall
  · have hinsert := Grows.insertNew hcall
    exact ⟨hgrows.trans hinsert, hinsert.accessed.subset hmem⟩
  · cases hcall
    exact ⟨hgrows, hmem⟩

end Heap

/-- No access so far went outside of the page table. -/
def InBounds (s : State) : Prop := ∀ i ∈ s.heap.accessed, i < s.heap.count

/-- The steps that keep to the page table. -/
def InRangeStep (s : State) (m : Move) (t : State) : Prop := SoundStep s m t ∧ InRange s m

variable {sz : Sizes} {s t : State} {m : Move}

theorem InBounds.of_logged (h : InBounds s) (logged : Logged t.heap.count s.heap t.heap)
    (hle : s.heap.count ≤ t.heap.count) : InBounds t := by
  obtain ⟨l, hl, hlt⟩ := logged
  intro i hi
  rw [hl] at hi
  exact (List.mem_append.mp hi).elim (hlt i) fun hi => (h i hi).trans_le hle

theorem inBounds_of_reachable (h : Transition.Reachable (PlacedStart sz) InRangeStep s) :
    InBounds s ∧ ∃ L lost first cur, Inv s L lost first cur := by
  refine h.invariant (I := fun s => InBounds s ∧ ∃ L lost first cur, Inv s L lost first cur) ?_ ?_
  · intro s hs
    obtain ⟨first, inv⟩ := inv_start hs
    refine ⟨?_, _, _, _, _, inv⟩
    obtain ⟨⟨-, -, hrun⟩, -⟩ := hs
    obtain ⟨metaBump, -, hrun⟩ := Option.bind_eq_some_iff.mp hrun
    cases hrun
    exact fun i hi => absurd hi List.not_mem_nil
  · intro u m v hu hstep
    obtain ⟨hbounds, L, lost, first, cur, inv⟩ := hu
    obtain ⟨L', lost', cur', inv', hle, hlogged, -⟩ := inv.step hstep.1
    exact ⟨hbounds.of_logged (hlogged hstep.2) hle, L', lost', first, cur', inv'⟩

theorem allocFixed_checkPoint (bump : FreeList.BumpAlloc) (size : Nat) :
    (PageBump.allocFixed bump size).1.checkPoint = bump.checkPoint := by
  rw [PageBump.allocFixed]
  split
  · rfl
  · split <;> rfl

/-- No request is served by looking outside of the page table. -/
theorem Represents.alloc_logged {h h' : Heap} {count size : Nat} {L : Nat → List Nat}
    {r : Except PageBump.AllocError Nat} (rep : Represents h count L)
    (hcall : h.alloc size = some (h', r)) : Logged count h h' ∧ h'.count = h.count := by
  obtain ⟨-, h₁, L', i, hcall', taken⟩ | ⟨-, hcall'⟩ := rep.alloc_spec size
  · cases hcall.symm.trans hcall'
    exact ⟨taken.logged, Heap.count_congr taken.changed.array taken.changed.bump⟩
  · cases hcall.symm.trans hcall'
    refine ⟨⟨[], rfl, fun i hi => absurd hi List.not_mem_nil⟩, ?_⟩
    exact congrArg (fun e => (e - h.array.base) / PAGE_SIZE) (allocFixed_checkPoint h.bump size)

/-- As long as no freed block ends at the end of the heap all accesses are within bounds, and
the next call of `free` goes out of bounds if its block does. -/
theorem accesses_in_bounds (h : Transition.Reachable (PlacedStart sz) InRangeStep s) :
    InBounds s ∧ (∀ size t, Step s (.alloc size) t → InBounds t) ∧
      ∀ b size t, Step s (.free b size) t → (InBounds t ↔ InRange s (.free b size)) := by
  obtain ⟨hbounds, L, lost, first, cur, inv⟩ := inBounds_of_reachable h
  refine ⟨hbounds, fun size t hstep => ?_, fun b size t hstep => ?_⟩
  · cases hstep with
    | alloc hpos hlt hcall =>
        obtain ⟨hlogged, hcount⟩ := inv.rep.alloc_logged hcall
        exact hbounds.of_logged (hcount.symm ▸ hlogged) hcount.ge
    | exhausted hpos hlt hcall =>
        obtain ⟨hlogged, hcount⟩ := inv.rep.alloc_logged hcall
        exact hbounds.of_logged (hcount.symm ▸ hlogged) hcount.ge
  · have hsound : InRange s (.free b size) → Sound s (.free b size) := fun hin heq =>
      absurd heq (ne_of_lt hin)
    constructor
    · cases hstep with
      | free hb hsize hcall =>
          obtain ⟨hptr, -, -, hle, -⟩ := inv.block_spec hb
          obtain ⟨hgrows, hmem⟩ := Heap.free_accessed hcall
          have hnext : s.heap.array.pageAddr (b.span s.base).first + b.num * PG_SIZE =
              s.heap.array.pageAddr ((b.span s.base).first + b.num) :=
            ArrayNode.pageAddr_add _ _ _
          rw [hsize, hptr, hnext, inv.rep.geometry.start_pageKey hle] at hmem
          exact fun hin =>
            (hin _ hmem).trans_eq (Heap.count_congr hgrows.array hgrows.bump)
    · intro hin
      obtain ⟨-, -, -, -, hle, hlogged, -⟩ := inv.step ⟨hstep, hsound hin⟩
      exact hbounds.of_logged (hlogged hin) hle

/-- In the heap of two pages the only page that can be allocated is the last one. -/
theorem starts_two : PlacedStart fixedSizes (fresh (fun _ => 0) 2) :=
  fresh_starts (by decide) (by decide) (by decide) fun _ _ => (by decide : 0 ≤ asI64 0)

theorem accesses_in_bounds_two :
    InBounds (freshUsed (fun _ => 0) 2 1) ∧
      (∀ size t, Step (freshUsed (fun _ => 0) 2 1) (.alloc size) t → InBounds t) ∧
        ∀ b size t, Step (freshUsed (fun _ => 0) 2 1) (.free b size) t →
          (InBounds t ↔ InRange (freshUsed (fun _ => 0) 2 1) (.free b size)) :=
  accesses_in_bounds ⟨_, [.alloc 4096], starts_two,
    .single ⟨(fresh_alloc starts_two (by decide) (by decide) rfl (by decide)).1, trivial⟩⟩

/-- Freeing the last page of the heap looks up the page behind it. -/
theorem probe_out_of_bounds : ∃ s t, PlacedStart fixedSizes s ∧
    Transition.Run Step s [.alloc 4096, .free ⟨69632, 1⟩ 4096] t ∧ ¬InBounds t := by
  obtain ⟨hstep, inv⟩ := fresh_alloc (n := 1) starts_two (by decide : 0 < 4096) (by decide) rfl
    (by decide)
  have hb : (⟨69632, 1⟩ : Block) ∈ (freshUsed (fun _ => 0) 2 1).live := Multiset.mem_singleton_self _
  obtain ⟨h, hcall, hcount, -, hmem, -⟩ := inv.free hb (by decide : originSize 4096 + 1 = 1)
    fun _ => by decide
  refine ⟨_, _, starts_two, (Transition.Run.single hstep.1).snoc (.free hb (by decide) hcall), ?_⟩
  intro hin
  have hlt := hin _ hmem
  simp only [hcount] at hlt
  exact absurd hlt (by decide)

end UniAlloc.FixedHeap
