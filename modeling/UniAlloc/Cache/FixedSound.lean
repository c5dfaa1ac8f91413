import UniAlloc.Cache.FixedHeap
import UniAlloc.Cache.Invariant
import UniAlloc.SizeClass.Small

/-!
# The build with a fixed heap keeps its promises

Pages that `PG_BUMP` has taken stay held, and the descriptors cut from them lie apart
as long as the rest of each region is given up before it is too small.
-/

namespace UniAlloc.Cache

open FreeList Radix Slab

variable {σ : Type} {B : PageBackend σ} {Holds : σ → Mem → RadixTree → Set Block → Prop}

/-- The regions of `PG_BUMP` and the large blocks. -/
def FixedBack.own (back : FixedBack σ) : Set Block := {b | b ∈ back.regions ++ back.large}

/-- The backend has given out these besides the runs of the slab allocators. -/
structure FixedHolds (Holds : σ → Mem → RadixTree → Set Block → Prop) (back : FixedBack σ)
    (mem : Mem) (tree : RadixTree) (held : Set Block) : Prop where
  inner : Holds back.inner mem tree (held ∪ back.own)
  nodup : (back.regions ++ back.large).Nodup
  off : ∀ b ∈ back.own, b ∉ held
  cleared : ∀ b ∈ back.own, ∀ p ∈ b.pages, tree.entry p = 0

theorem heldPage_union {held own : Set Block} {p : Nat} (h : HeldPage held p) :
    HeldPage (held ∪ own) p := by
  obtain ⟨b, hb, hp⟩ := h
  exact ⟨b, .inl hb, hp⟩

theorem sameOn_left {held own : Set Block} {mem mem' : Mem} {tree tree' : RadixTree}
    (h : SameOn (held ∪ own) mem mem' tree tree') : SameOn held mem mem' tree tree' :=
  ⟨fun a ha => h.mem a (heldPage_union ha), fun p hp => h.entry p (heldPage_union hp)⟩

/-- These pages belong to no run of a slab allocator. -/
theorem FixedHolds.own_off (law : Lawful B Holds) {back : FixedBack σ} {mem : Mem}
    {tree : RadixTree} {held : Set Block} (h : FixedHolds Holds back mem tree held) {b : Block}
    (hb : b ∈ back.own) {p : Nat} (hp : p ∈ b.pages) : ¬HeldPage held p := by
  rintro ⟨c, hc, hpc⟩
  refine law.apart h.inner (.inr hb) (.inl hc) ?_ p hp hpc
  rintro rfl
  exact h.off b hb hc

theorem fixedBackend_lawful (law : Lawful B Holds) :
    Lawful (fixedBackend B) (FixedHolds Holds) where
  placed h hb := law.placed h.inner (.inl hb)
  apart h hb hc := law.apart h.inner (.inl hb) (.inl hc)
  tags {back mem tree held p} h hp := by
    by_cases hown : HeldPage back.own p
    · obtain ⟨b, hb, hpb⟩ := hown
      rw [h.cleared b hb p hpb, Int.zero_emod]
    · refine law.tags h.inner ?_
      rintro ⟨b, hb | hb, hpb⟩
      · exact hp ⟨b, hb, hpb⟩
      · exact hown ⟨b, hb, hpb⟩
  use {back mem tree held mem' tree'} h hmem htree := by
    refine ⟨law.use h.inner (fun a ha => hmem a fun hheld => ha (heldPage_union hheld)) ?_,
      h.nodup, h.off, fun b hb p hp => ?_⟩
    · intro p
      obtain hsame | ⟨hheld, hrange⟩ := htree p
      · exact .inl hsame
      · exact .inr ⟨heldPage_union hheld, hrange⟩
    · obtain hsame | ⟨hheld, -⟩ := htree p
      · rw [hsame]
        exact h.cleared b hb p hp
      · exact (h.own_off law hb hp hheld).elim
  alloc {back mem tree held num ptr back' mem' tree'} h hnum hcall := by
    obtain ⟨⟨ptr, inner, mem', tree'⟩, hinner, hcall⟩ := Option.bind_eq_some_iff.mp hcall
    cases hcall
    obtain ⟨hholds, hnew, hsame, hzero⟩ := law.alloc h.inner hnum hinner
    refine ⟨⟨?_, h.nodup, ?_, ?_⟩, fun hmem => hnew (.inl hmem), sameOn_left hsame, hzero⟩
    · rwa [Set.insert_union]
    · rintro b hb (rfl | hb')
      · exact hnew (.inr hb)
      · exact h.off b hb hb'
    · intro b hb p hp
      rw [hsame.entry p ⟨b, .inr hb, hp⟩]
      exact h.cleared b hb p hp
  dealloc {back mem tree held b} h hb hzero := by
    obtain ⟨inner, mem', tree', hinner, hholds, hsame⟩ := law.dealloc h.inner (.inl hb) hzero
    have hset : (held ∪ back.own) \ {b} = held \ {b} ∪ back.own := by
      rw [Set.union_sdiff_distrib, Set.sdiff_singleton_eq_self fun hown => h.off b hown hb]
    rw [hset] at hholds hsame
    refine ⟨{ back with inner }, mem', tree', ?_,
      ⟨hholds, h.nodup, fun c hc hmem => h.off c hc hmem.1, ?_⟩, sameOn_left hsame⟩
    · exact Option.bind_eq_some_iff.mpr ⟨_, hinner, rfl⟩
    · intro c hc p hp
      rw [hsame.entry p ⟨c, .inr hc, hp⟩]
      exact h.cleared c hc p hp

/-- A run that the backend gives out to someone else. -/
theorem FixedHolds.take (law : Lawful B Holds) {back : FixedBack σ} (back' : FixedBack σ)
    {mem mem' : Mem} {tree tree' : RadixTree} {held : Set Block} {ptr num : Nat}
    (h : FixedHolds Holds back mem tree held) (hnum : 0 < num)
    (hcall : B.alloc back.inner mem tree (PAGE_SIZE * num) = some (ptr, back'.inner, mem', tree'))
    (perm : (back'.regions ++ back'.large).Perm (⟨ptr, num⟩ :: (back.regions ++ back.large))) :
    FixedHolds Holds back' mem' tree' held ∧ SameOn held mem mem' tree tree' := by
  obtain ⟨hholds, hnew, hsame, hzero⟩ := law.alloc h.inner hnum hcall
  have hown : back'.own = insert ⟨ptr, num⟩ back.own := by
    ext b
    exact perm.mem_iff.trans List.mem_cons
  refine ⟨⟨?_, ?_, ?_, ?_⟩, sameOn_left hsame⟩
  · rwa [hown, Set.union_insert]
  · exact perm.nodup_iff.mpr (List.nodup_cons.mpr ⟨fun hmem => hnew (.inr hmem), h.nodup⟩)
  · rw [hown]
    rintro b (rfl | hb) hheld
    · exact hnew (.inl hheld)
    · exact h.off b hb hheld
  · rw [hown]
    rintro b (rfl | hb) p hp
    · exact hzero p hp
    · rw [hsame.entry p ⟨b, .inr hb, hp⟩]
      exact h.cleared b hb p hp

/-- Such a run is given back. -/
theorem FixedHolds.give (law : Lawful B Holds) {back : FixedBack σ} (back' : FixedBack σ)
    {mem mem' : Mem} {tree tree' : RadixTree} {held : Set Block} {b : Block}
    (h : FixedHolds Holds back mem tree held) (hb : b ∈ back.own)
    (hcall : B.dealloc back.inner mem tree b.ptr (PAGE_SIZE * b.num) =
      some (back'.inner, mem', tree'))
    (perm : (back.regions ++ back.large).Perm (b :: (back'.regions ++ back'.large))) :
    FixedHolds Holds back' mem' tree' held ∧ SameOn held mem mem' tree tree' := by
  obtain ⟨inner, mem'', tree'', hcall', hholds, hsame⟩ :=
    law.dealloc h.inner (.inr hb) (h.cleared b hb)
  cases hcall.symm.trans hcall'
  have nodup := List.nodup_cons.mp (perm.nodup_iff.mp h.nodup)
  have hold : ∀ {c}, c ∈ back'.own → c ∈ back.own := fun hc =>
    perm.mem_iff.mpr (List.mem_cons_of_mem _ hc)
  have hset : (held ∪ back.own) \ {b} = held ∪ back'.own := by
    ext c
    have hmem : c ∈ back.own ↔ c = b ∨ c ∈ back'.own := perm.mem_iff.trans List.mem_cons
    simp only [Set.mem_sdiff, Set.mem_union, Set.mem_singleton_iff, hmem]
    constructor
    · rintro ⟨hc | rfl | hc, hne⟩
      · exact .inl hc
      · exact absurd rfl hne
      · exact .inr hc
    · rintro (hc | hc)
      · exact ⟨.inl hc, fun e => h.off b hb (e ▸ hc)⟩
      · exact ⟨.inr (.inr hc), fun e => nodup.1 (e ▸ hc)⟩
  rw [hset] at hholds hsame
  refine ⟨⟨hholds, nodup.2, fun c hc => h.off c (hold hc), fun c hc p hp => ?_⟩,
    sameOn_left hsame⟩
  rw [hsame.entry p ⟨c, .inr hc, hp⟩]
  exact h.cleared c (hold hc) p hp

/-- The descriptor that `PG_BUMP` would hand out lies off those in use. -/
def FreshDesc (B : PageBackend σ) (heap : Heap (FixedBack σ)) : Prop :=
  ∀ d back mem tree, heap.back.takeDesc B heap.mem heap.tree = some (d, back, mem, tree) →
    0 < d ∧ d + OBJECT_PAGE_SIZE ≤ 2 ^ 47 ∧
      ∀ d' ∈ heap.created, d' < d ∨ d + OBJECT_PAGE_SIZE ≤ d'

theorem takeDesc_spec (law : Lawful B Holds) {back back' : FixedBack σ} {mem mem' : Mem}
    {tree tree' : RadixTree} {held : Set Block} {d : Nat}
    (h : FixedHolds Holds back mem tree held)
    (hcall : back.takeDesc B mem tree = some (d, back', mem', tree')) :
    FixedHolds Holds back' mem' tree' held ∧ SameOn held mem mem' tree tree' := by
  rw [FixedBack.takeDesc] at hcall
  split at hcall
  · obtain ⟨⟨start, inner, mem', tree'⟩, hinner, hcall⟩ := Option.bind_eq_some_iff.mp hcall
    cases hcall
    exact h.take law _ Nat.one_pos hinner (.refl _)
  · cases hcall
    exact ⟨⟨h.inner, h.nodup, h.off, h.cleared⟩, fun _ _ => rfl, fun _ _ => rfl⟩

section Slabs

variable {κ : Type} {cfg : κ → Config} {slabs : κ → SCAllocator} {h : Heap (FixedBack σ)}
  {g : Ghost κ} {k : κ}

/-- The invariant after the backend has moved and left the runs alone. -/
theorem slabInv_backed {HoldsOf : FixedBack σ → Mem → RadixTree → Set Block → Prop}
    {BackOf : PageBackend (FixedBack σ)} (law : Lawful BackOf HoldsOf)
    (inv : Slab.Inv cfg HoldsOf slabs h g) {back : FixedBack σ} {mem : Mem} {tree : RadixTree}
    {pgBump : PageBumpAlloc} (same : SameOn (runs cfg h.desc g) h.mem mem h.tree tree)
    (holds : HoldsOf back mem tree (runs cfg h.desc g)) (bump : pgBump.Ok h.created) :
    Slab.Inv cfg HoldsOf slabs { h with back, mem, tree, pgBump } g :=
  { inv with
    page := fun {k kind d} hd => by
      refine (inv.page hd).congr rfl fun hkind busy x hx => same.mem x ?_
      have hmap : g.Mapped k d := ⟨kind, hkind, hd⟩
      exact ⟨_, ⟨k, d, hmap, rfl⟩, inv.chunk_mem_page law hmap (busy.sub x hx)⟩
    bump := bump
    holds := holds
    entry := fun {k d} hmap p hp => by
      rw [same.entry p ⟨_, ⟨k, d, hmap, rfl⟩, hp⟩]
      exact inv.entry hmap p hp }

variable [DecidableEq κ]

/-- What `allocate_batch_v2` does in the build with a fixed heap. -/
theorem fixedAllocateBatch_spec (law : Lawful B Holds)
    (inv : Slab.Inv cfg (FixedHolds Holds) slabs h g) (ok : (cfg k).Ok)
    (fits : ∀ ptr, InsertFits ((cfg k).run ptr)) (align : Nat) (fresh : FreshDesc B h) :
    (∃ slab' h' ptr n stride g' l, fixedAllocateBatch B (slabs k) h align =
        some (slab', h', ptr, n, stride) ∧
      Slab.Inv cfg (FixedHolds Holds) (Function.update slabs k slab') h' g' ∧
      Granted cfg h h' g g' k ptr n stride l ∧ (stride = none → align = 1)) ∨
    fixedAllocateBatch B (slabs k) h align = none ∧ FixedExhausted B h (cfg k).pgNum := by
  have law' := fixedBackend_lawful law
  have hnone {h : Heap (FixedBack σ)} : (fixedBackend B).alloc h.back h.mem h.tree
      (PAGE_SIZE * (cfg k).pgNum) = none →
        B.alloc h.back.inner h.mem h.tree (PAGE_SIZE * (cfg k).pgNum) = none := by
    intro hcall
    obtain hnone | ⟨r, hr⟩ := Option.eq_none_or_eq_some
      (B.alloc h.back.inner h.mem h.tree (PAGE_SIZE * (cfg k).pgNum))
    · exact hnone
    · have hcall : (B.alloc h.back.inner h.mem h.tree (PAGE_SIZE * (cfg k).pgNum)).bind _ = none :=
        hcall
      rw [hr] at hcall
      cases hcall
  by_cases needs : NeedsDesc (slabs k) align
  · rw [fixedAllocateBatch, if_pos needs]
    cases htake : h.back.takeDesc B h.mem h.tree with
    | none => exact .inr ⟨rfl, .inr (.inl htake)⟩
    | some r =>
        obtain ⟨d, back, mem, tree⟩ := r
        obtain ⟨holds, same⟩ := takeDesc_spec law inv.holds htake
        obtain ⟨hpos, hbound, hfresh⟩ := fresh d back mem tree htake
        have hbump : PageBumpAlloc.Ok ⟨d, d + OBJECT_PAGE_SIZE⟩ h.created := by
          refine ⟨⟨Nat.le_add_right _ _, ?_⟩, ?_, fun _ => hpos, hbound, hfresh⟩
          · simp only [PageBumpAlloc.DEFAULT_SIZE, OBJECT_PAGE_SIZE, PAGE_SIZE]
            omega
          · simp only [Nat.add_sub_cancel_left, Nat.mod_self]
        have inv' := slabInv_backed law' inv same holds hbump
        have hroom : ¬PageBumpAlloc.Exhausted ⟨d, d + OBJECT_PAGE_SIZE⟩ := by
          simp only [PageBumpAlloc.Exhausted, PageBumpAlloc.DEFAULT_SIZE, OBJECT_PAGE_SIZE,
            PAGE_SIZE]
          omega
        have hregion : PageBumpAlloc.Exhausted ⟨d, d + OBJECT_PAGE_SIZE⟩ →
            FreshDescs h.created 0 := fun hex => absurd hex hroom
        obtain ⟨slab', h', ptr, n, stride, g', l, hcall, inv'', granted, halign⟩ |
            ⟨hcall, hout⟩ := allocate_spec law' inv' (k := k) align (fun _ _ _ => hregion)
          fun _ _ ptr _ _ => ⟨ok, fits ptr⟩
        · refine .inl ⟨slab', h', ptr, n, stride, g', l, hcall, inv'', ?_, halign⟩
          exact { granted with
            frame := fun a ha => (granted.frame a ha).trans (same.mem a ha) }
        · exact .inr ⟨hcall, .inr (.inr ⟨d, back, mem, tree, htake, hnone hout⟩)⟩
  · rw [fixedAllocateBatch, if_neg needs]
    have hregion : ¬((slabs k).partialStart ≠ 0 ∧ align = 1) → (slabs k).emptyStart = 0 →
        (slabs k).uninitStart = 0 → h.pgBump.Exhausted → FreshDescs h.created 0 :=
      fun hs he hu => absurd ⟨hs, he, hu⟩ needs
    obtain hcall | ⟨hcall, hout⟩ := allocate_spec law' inv (k := k) align hregion
      fun _ _ ptr _ _ => ⟨ok, fits ptr⟩
    · exact .inl hcall
    · exact .inr ⟨hcall, .inl (hnone hout)⟩

end Slabs

/-- The requests of the small path that `get_size_class` serves. -/
def ServedRequest (size : Nat) : Prop :=
  size < 2 ^ 63 ∧ SmallSizeClass.finalSize size ≤ SmallSizeClass.MAX_SIZE ∧
    isPowerOfTwo (SmallSizeClass.finalSize size) = true

instance : DecidablePred ServedRequest := fun _ => inferInstanceAs (Decidable (_ ∧ _ ∧ _))

theorem fixedBuild_sound (law : Lawful B Holds) :
    (fixedBuild B (FreshDesc B)).Sound (FixedHolds Holds) ServedRequest where
  law := fixedBackend_lawful law
  classes := smallSizeClass_sound
  rounds _ h := (smallSizeClass_rounds_iff h.1).mpr h.2
  batch align mapped inv hidx fresh := by
    exact fixedAllocateBatch_spec law inv (configs_ok smallSizeClass_sound hidx)
      (fun ptr => (configs_fits smallSizeClass_sound rfl).1) align fresh

end UniAlloc.Cache
