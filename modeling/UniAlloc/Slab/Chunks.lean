import UniAlloc.Slab.Invariant

/-!
# Chunks that are out

Chunks of one or of several allocators that are out do not overlap, and their
holders may write to them.
-/

namespace UniAlloc.Slab

open FreeList Radix

variable {κ σ : Type} {cfg : κ → Config} {Holds : σ → Mem → RadixTree → Set Block → Prop}
  {B : PageBackend σ} {slabs : κ → SCAllocator} {h : Heap σ} {g : Ghost κ} {k k' : κ} {x y a : Nat}

namespace Inv

/-- A descriptor is on one ring of its allocator. -/
theorem kind_unique (inv : Inv cfg Holds slabs h g) {d : Nat} {kind kind' : Kind}
    (hd : d ∈ g.rings (k, kind)) (hd' : d ∈ g.rings (k, kind')) : kind = kind' :=
  congrArg Prod.snd (inv.threads.apart hd hd')

theorem ok_of_out (inv : Inv cfg Holds slabs h g) (hx : x ∈ g.out k) : (cfg k).Ok := by
  obtain ⟨d, hd⟩ := inv.out.mp hx
  exact inv.ok hd.inUse.mapped

/-- The bytes of a chunk that is out lie in a run of pages. -/
theorem out_held (law : Lawful B Holds) (inv : Inv cfg Holds slabs h g) (hx : x ∈ g.out k)
    (ha : x ≤ a) (ha' : a < x + (cfg k).align) : HeldPage (runs cfg h.desc g) (a / PG_SIZE) := by
  obtain ⟨d, hd⟩ := inv.out.mp hx
  exact ⟨_, ⟨k, d, hd.inUse.mapped, rfl⟩, (inv.ok hd.inUse.mapped).chunk_page
    (inv.placed law hd.inUse.mapped) hd.chunk ha ha'⟩

theorem out_pos (law : Lawful B Holds) (inv : Inv cfg Holds slabs h g) (hx : x ∈ g.out k) :
    0 < x := by
  obtain ⟨d, hd⟩ := inv.out.mp hx
  have := (inv.placed law hd.inUse.mapped).pos
  have hle := ((inv.ok hd.inUse.mapped).chunk_le hd.chunk).1
  exact this.trans_le hle

/-- A byte of a chunk belongs to no other chunk. -/
theorem chunk_unique (law : Lawful B Holds) (inv : Inv cfg Holds slabs h g) {d d' : Nat}
    (hmap : g.Mapped k d) (hmap' : g.Mapped k' d') (hx : x ∈ (cfg k).chunks (h.desc d).data)
    (hy : y ∈ (cfg k').chunks (h.desc d').data) (hxa : x ≤ a) (hxa' : a < x + (cfg k).align)
    (hya : y ≤ a) (hya' : a < y + (cfg k').align) : k = k' ∧ x = y := by
  obtain rfl : d = d' := inv.eq_of_page hmap hmap'
    ((inv.ok hmap).chunk_page (inv.placed law hmap) hx hxa hxa')
    ((inv.ok hmap').chunk_page (inv.placed law hmap') hy hya hya')
  obtain rfl := inv.class_unique hmap hmap'
  refine ⟨rfl, by_contra fun hne => ?_⟩
  have := Config.chunks_apart hx hy hne
  omega

/-- Different chunks do not overlap. -/
theorem chunk_apart (law : Lawful B Holds) (inv : Inv cfg Holds slabs h g) {d d' : Nat}
    (hmap : g.Mapped k d) (hmap' : g.Mapped k' d') (hx : x ∈ (cfg k).chunks (h.desc d).data)
    (hy : y ∈ (cfg k').chunks (h.desc d').data) (hne : k ≠ k' ∨ x ≠ y) :
    x + (cfg k).align ≤ y ∨ y + (cfg k').align ≤ x := by
  by_contra hlap
  have := (inv.ok hmap).align_pos
  have := (inv.ok hmap').align_pos
  obtain ⟨rfl, rfl⟩ : k = k' ∧ x = y := by
    obtain hxy | hxy := le_total x y
    · exact inv.chunk_unique law hmap hmap' hx hy hxy (by omega) le_rfl (by omega)
    · exact inv.chunk_unique law hmap hmap' hx hy le_rfl (by omega) hxy (by omega)
  exact hne.elim (· rfl) (· rfl)

/-- A byte of a chunk that is out belongs to no other chunk that is out. -/
theorem out_unique (law : Lawful B Holds) (inv : Inv cfg Holds slabs h g) (hx : x ∈ g.out k)
    (hy : y ∈ g.out k') (hxa : x ≤ a) (hxa' : a < x + (cfg k).align) (hya : y ≤ a)
    (hya' : a < y + (cfg k').align) : k = k' ∧ x = y := by
  obtain ⟨d, hd⟩ := inv.out.mp hx
  obtain ⟨d', hd'⟩ := inv.out.mp hy
  exact inv.chunk_unique law hd.inUse.mapped hd'.inUse.mapped hd.chunk hd'.chunk hxa hxa' hya hya'

/-- Different chunks that are out do not overlap. -/
theorem out_apart (law : Lawful B Holds) (inv : Inv cfg Holds slabs h g) (hx : x ∈ g.out k)
    (hy : y ∈ g.out k') (hne : k ≠ k' ∨ x ≠ y) :
    x + (cfg k).align ≤ y ∨ y + (cfg k').align ≤ x := by
  obtain ⟨d, hd⟩ := inv.out.mp hx
  obtain ⟨d', hd'⟩ := inv.out.mp hy
  exact inv.chunk_apart law hd.inUse.mapped hd'.inUse.mapped hd.chunk hd'.chunk hne

theorem class_of_out (law : Lawful B Holds) (inv : Inv cfg Holds slabs h g) (hx : x ∈ g.out k)
    (hx' : x ∈ g.out k') : k = k' := by
  have := (inv.ok_of_out hx).align_pos
  have := (inv.ok_of_out hx').align_pos
  exact (inv.out_unique law hx hx' le_rfl (by omega) le_rfl (by omega)).1

/-- The holders of the chunks that are out write to them only. -/
theorem write (law : Lawful B Holds) (inv : Inv cfg Holds slabs h g) {mem : Mem}
    (same : ∀ a, (∀ k, ∀ x ∈ g.out k, ¬(x ≤ a ∧ a < x + (cfg k).align)) → mem a = h.mem a) :
    Inv cfg Holds slabs { h with mem } g :=
  { inv with
    page := fun {k kind d} hd => by
      refine (inv.page hd).congr rfl fun hkind busy x hx => same x ?_
      rintro k' y hy ⟨hyx, hxy⟩
      have hmap : g.Mapped k d := ⟨kind, hkind, hd⟩
      have hchunk := busy.sub x hx
      obtain ⟨d', hd'⟩ := inv.out.mp hy
      have hmap' := hd'.inUse.mapped
      have hpage := (inv.ok hmap').chunk_page (inv.placed law hmap') hd'.chunk hyx hxy
      obtain rfl := inv.eq_of_page hmap' hmap hpage (inv.chunk_mem_page law hmap hchunk)
      obtain rfl := inv.class_unique hmap hmap'
      have hne : y ≠ x := by
        rintro rfl
        exact hd'.notFree hx
      have := Config.chunks_apart hd'.chunk hchunk hne
      have := (inv.ok hmap).align_pos
      omega
    holds := by
      refine law.use inv.holds (fun a ha => same a ?_) fun p => .inl rfl
      rintro k x hx ⟨hle, hlt⟩
      have held := inv.out_held law hx hle hlt
      exact ha held }

end Inv

end UniAlloc.Slab
