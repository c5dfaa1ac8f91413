import UniAlloc.Slab.Geometry
import UniAlloc.Slab.Invariant

/-!
# The parameters of an allocator

The parameters that `SCAllocator::new` computes suit the pages of a size class, and
new allocators without pages keep the invariant.
-/

namespace UniAlloc.Slab

open FreeList

namespace SCAllocator

variable {sizeClass numOsPages : Nat}

theorem chunkCount_pos (hsize : 0 < sizeClass) (hle : sizeClass ≤ PAGE_SIZE * numOsPages) :
    0 < chunkCount sizeClass numOsPages :=
  Nat.div_pos hle hsize

/-- The stride lies between the size class and the even share of the page. -/
theorem chunkAlign_spec (hsize : 0 < sizeClass) (hle : sizeClass ≤ PAGE_SIZE * numOsPages) :
    sizeClass ≤ chunkAlign sizeClass numOsPages ∧
      chunkCount sizeClass numOsPages * chunkAlign sizeClass numOsPages ≤
        PAGE_SIZE * numOsPages :=
  ⟨(strideIn_spec hsize hle).1, (chunks_fit hsize hle).1⟩

/-- The casts to `i32` lose nothing for pages that can be registered. -/
theorem config_of_new (hsize : 0 < sizeClass) (hle : sizeClass ≤ PAGE_SIZE * numOsPages)
    (hnum : numOsPages ≤ 2 ^ 18 + 2 ^ 16) :
    Config.of (new sizeClass numOsPages) =
      ⟨numOsPages, chunkCount sizeClass numOsPages, chunkAlign sizeClass numOsPages⟩ := by
  have hcount := chunkCount_pos hsize hle
  have hcount' : chunkCount sizeClass numOsPages ≤ PAGE_SIZE * numOsPages := Nat.div_le_self _ _
  have halign := Nat.le_of_mul_le_mul_left
    ((chunkAlign_spec hsize hle).2.trans (Nat.le_mul_of_pos_left _ hcount)) hcount
  simp only [PAGE_SIZE] at hcount' halign
  rw [new, if_neg hsize.ne', Config.of, asUsize_asI32 (by omega), asUsize_asI32 (by omega)]

theorem config_ok (hsize : 0 < sizeClass) (hle : sizeClass ≤ PAGE_SIZE * numOsPages)
    (hnum : numOsPages ≤ 2 ^ 18 + 2 ^ 16) : (Config.of (new sizeClass numOsPages)).Ok := by
  have hcount := chunkCount_pos hsize hle
  obtain ⟨halign, hfits⟩ := chunkAlign_spec hsize hle
  rw [config_of_new hsize hle hnum]
  refine ⟨Nat.pos_of_ne_zero ?_, hcount, hsize.trans_le halign, hfits⟩
  rintro rfl
  omega

end SCAllocator

@[simp] theorem SCAllocator.start_new (sizeClass numOsPages : Nat) (kind : Kind) :
    (SCAllocator.new sizeClass numOsPages).start kind = 0 := by
  rw [SCAllocator.new]
  split <;> cases kind <;> rfl

@[simp] theorem SCAllocator.emptyCount_new (sizeClass numOsPages : Nat) :
    (SCAllocator.new sizeClass numOsPages).emptyCount = 0 := by
  rw [SCAllocator.new]
  split <;> rfl

/-- New allocators have no pages. -/
theorem inv_new {κ σ : Type} {Holds : σ → Mem → Radix.RadixTree → Set Block → Prop}
    (sizeClass numOsPages : κ → Nat) {h : Heap σ} (created : h.created = [])
    (bump : h.pgBump.Ok []) (holds : Holds h.back h.mem h.tree ∅) :
    Inv (fun k => Config.of (SCAllocator.new (sizeClass k) (numOsPages k))) Holds
      (fun k => SCAllocator.new (sizeClass k) (numOsPages k)) h Ghost.new where
  configured _ := ⟨rfl, rfl, rfl⟩
  sound hd := absurd hd List.not_mem_nil
  threads := ⟨fun _ => LinkedRing.nil, fun i => SCAllocator.start_new _ _ i.2,
    fun _ => List.nodup_nil, fun hx => absurd hx List.not_mem_nil,
    fun hx => absurd hx List.not_mem_nil⟩
  emptyCount k := SCAllocator.emptyCount_new _ _
  page hd := absurd hd List.not_mem_nil
  created := by simp [created, Ghost.new]
  nodup := created ▸ List.nodup_nil
  small := by simp [created]
  bump := created ▸ bump
  holds := by
    have : runs (fun k => Config.of (SCAllocator.new (sizeClass k) (numOsPages k))) h.desc
        Ghost.new = ∅ := by
      ext blk
      simp [runs, Ghost.Mapped, Ghost.new]
    exact this ▸ holds
  entry := fun ⟨_, _, hd⟩ => absurd hd List.not_mem_nil
  out := by
    simp only [Ghost.new, Finset.notMem_empty, false_iff, not_exists]
    rintro k x d ⟨hd | hd, -, -⟩ <;> exact absurd hd List.not_mem_nil

theorem PageBumpAlloc.ok_new : PageBumpAlloc.new.Ok [] :=
  ⟨⟨le_rfl, Nat.zero_le _⟩, rfl, fun hlt => hlt, Nat.zero_le _, by simp⟩

/-- A run that can be registered has at most this many pages. -/
theorem num_le_of_insertFits {b : Block} (h : InsertFits b) : b.num ≤ 2 ^ 18 + 2 ^ 16 := by
  rw [InsertFits, PieceFits] at h
  omega

end UniAlloc.Slab
