import UniAlloc.Cache.FixedSound

/-!
# The descriptors of the build with a fixed heap

Every descriptor lies in a region that `PG_BUMP` has been given, off the part that is
left of the current one. A call of a slab allocator creates at most one.
-/

namespace UniAlloc.Cache

open FreeList Radix Slab

variable {σ : Type} {B : PageBackend σ} {Holds : σ → Mem → RadixTree → Set Block → Prop}

/-- The descriptors and what is left of the current region. -/
structure FixedDescs (created : List Nat) (back : FixedBack σ) : Prop where
  region : back.pgBump.start < back.pgBump.current → ∃ b ∈ back.regions,
    b.ptr ≤ back.pgBump.start ∧ back.pgBump.current ≤ b.ptr + b.num * PG_SIZE
  inside : ∀ d ∈ created, ∃ b ∈ back.regions,
    b.ptr ≤ d ∧ d + OBJECT_PAGE_SIZE ≤ b.ptr + b.num * PG_SIZE
  off : ∀ d ∈ created,
    d + OBJECT_PAGE_SIZE ≤ back.pgBump.start ∨ back.pgBump.current ≤ d

/-- Runs without a common page have no common byte. -/
theorem bytes_apart {b c : Block} (hb : b.Placed) (hc : c.Placed)
    (h : ∀ p ∈ b.pages, p ∉ c.pages) :
    b.ptr + b.num * PG_SIZE ≤ c.ptr ∨ c.ptr + c.num * PG_SIZE ≤ b.ptr := by
  obtain ⟨hbal, -, hbnum, -⟩ := hb
  obtain ⟨hcal, -, hcnum, -⟩ := hc
  simp only [Block.mem_pages, PG_SIZE] at h hbal hcal ⊢
  have h₁ := h (b.ptr / 4096)
  have h₂ := h (c.ptr / 4096)
  omega

section

variable {created : List Nat} {back back' : FixedBack σ} {mem mem' : Mem}
  {tree tree' : RadixTree} {held : Set Block} {d : Nat}

/-- The descriptor handed out lies off the others. -/
theorem FixedDescs.take (law : Lawful B Holds) (h : FixedDescs created back)
    (holds : FixedHolds Holds back mem tree held) (room : HasRoom back.pgBump)
    (hcall : back.takeDesc B mem tree = some (d, back', mem', tree')) :
    0 < d ∧ d + OBJECT_PAGE_SIZE ≤ 2 ^ 47 ∧
      (∀ d' ∈ created, d' + OBJECT_PAGE_SIZE ≤ d ∨ d + OBJECT_PAGE_SIZE ≤ d') ∧
      FixedDescs (d :: created) back' := by
  rw [FixedBack.takeDesc] at hcall
  split at hcall
  · obtain ⟨⟨start, inner, mem', tree'⟩, hinner, hcall⟩ := Option.bind_eq_some_iff.mp hcall
    cases hcall
    obtain ⟨hholds, hnew, -, -⟩ := law.alloc holds.inner Nat.one_pos hinner
    have placed := law.placed hholds (Set.mem_insert _ _)
    obtain ⟨haligned, hpos, -, hbound⟩ := id placed
    simp only [PG_SIZE] at haligned hbound
    have hapart : ∀ b ∈ back.regions,
        b.ptr + b.num * PG_SIZE ≤ start ∨ start + 4096 ≤ b.ptr := by
      intro b hb
      have hne : b ≠ ⟨start, 1⟩ := by
        rintro rfl
        exact hnew (.inr (List.mem_append_left _ hb))
      have hmem : b ∈ insert (⟨start, 1⟩ : Block) (held ∪ back.own) :=
        .inr (.inr (List.mem_append_left _ hb))
      have := bytes_apart (law.placed hholds hmem) placed
        (law.apart hholds hmem (Set.mem_insert _ _) hne)
      simp only [PG_SIZE] at this ⊢
      omega
    have hold : ∀ d' ∈ created, d' + OBJECT_PAGE_SIZE ≤ start ∨ start + 4096 ≤ d' := by
      intro d' hd'
      obtain ⟨b, hb, hlo, hhi⟩ := h.inside d' hd'
      have := hapart b hb
      omega
    simp only [OBJECT_PAGE_SIZE] at hold ⊢
    refine ⟨by omega, by omega, fun d' hd' => ?_, fun _ => ?_, fun d' hd' => ?_, fun d' hd' => ?_⟩
    · have := hold d' hd'
      omega
    · refine ⟨⟨start, 1⟩, List.mem_cons_self, le_rfl, ?_⟩
      simp only [PG_SIZE]
      omega
    · obtain rfl | hd' := List.mem_cons.mp hd'
      · refine ⟨⟨start, 1⟩, List.mem_cons_self, ?_, ?_⟩ <;>
          · simp only [PG_SIZE, OBJECT_PAGE_SIZE]
            omega
      · obtain ⟨b, hb, hin⟩ := h.inside d' hd'
        exact ⟨b, List.mem_cons_of_mem _ hb, hin⟩
    · obtain rfl | hd' := List.mem_cons.mp hd'
      · exact .inr le_rfl
      · have := hold d' hd'
        simp only [OBJECT_PAGE_SIZE]
        omega
  · rename_i hex
    cases hcall
    have hleft := room.resolve_left hex
    simp only [OBJECT_PAGE_SIZE] at hleft
    obtain ⟨b, hb, hlo, hhi⟩ := h.region (by omega)
    obtain ⟨haligned, hpos, -, hbound⟩ := law.placed holds.inner (.inr (List.mem_append_left _ hb))
    simp only [PG_SIZE] at hhi haligned hbound
    simp only [OBJECT_PAGE_SIZE]
    refine ⟨by omega, by omega, fun d' hd' => ?_, fun _ => ?_, fun d' hd' => ?_, fun d' hd' => ?_⟩
    · have := h.off d' hd'
      simp only [OBJECT_PAGE_SIZE] at this
      omega
    · refine ⟨b, hb, hlo, ?_⟩
      simp only [PG_SIZE]
      omega
    · obtain rfl | hd' := List.mem_cons.mp hd'
      · refine ⟨b, hb, by omega, ?_⟩
        simp only [PG_SIZE, OBJECT_PAGE_SIZE]
        omega
      · exact h.inside d' hd'
    · obtain rfl | hd' := List.mem_cons.mp hd'
      · exact .inr le_rfl
      · obtain hlt | hge := h.off d' hd'
        · exact .inl hlt
        · exact .inr ((Nat.sub_le _ _).trans hge)

end

/-- Neither the descriptors nor `PG_BUMP` change. -/
structure Kept (h h' : Heap (FixedBack σ)) : Prop where
  created : h'.created = h.created
  pgBump : h'.back.pgBump = h.back.pgBump
  regions : h'.back.regions = h.back.regions

theorem Kept.refl (h : Heap (FixedBack σ)) : Kept h h := ⟨rfl, rfl, rfl⟩

theorem Kept.trans {h₁ h₂ h₃ : Heap (FixedBack σ)} (h : Kept h₁ h₂) (h' : Kept h₂ h₃) :
    Kept h₁ h₃ :=
  ⟨h'.created.trans h.created, h'.pgBump.trans h.pgBump, h'.regions.trans h.regions⟩

theorem Kept.descs {h h' : Heap (FixedBack σ)} (kept : Kept h h')
    (descs : FixedDescs h.created h.back) : FixedDescs h'.created h'.back := by
  constructor
  · rw [kept.pgBump, kept.regions]
    exact descs.region
  · rw [kept.created, kept.regions]
    exact descs.inside
  · rw [kept.created, kept.pgBump]
    exact descs.off

section

variable {sc sc' : SCAllocator} {h h' : Heap (FixedBack σ)} {kind : Kind} {idx pgNum ptr : Nat}

theorem removeFrom_kept (hcall : sc.removeFrom h kind idx = some (sc', h')) : Kept h h' := by
  obtain ⟨r, -, hcall⟩ := Option.bind_eq_some_iff.mp hcall
  cases hcall
  exact ⟨rfl, rfl, rfl⟩

theorem insertInto_kept (hcall : sc.insertInto h kind idx = some (sc', h')) : Kept h h' := by
  obtain ⟨r, -, hcall⟩ := Option.bind_eq_some_iff.mp hcall
  cases hcall
  exact ⟨rfl, rfl, rfl⟩

theorem removeEmpty_kept (hcall : sc.removeEmpty h = some (sc', h', idx)) : Kept h h' := by
  obtain ⟨-, hcall⟩ := Option.ite_none_right_eq_some.mp hcall
  obtain ⟨prev, -, hcall⟩ := Option.bind_eq_some_iff.mp hcall
  obtain ⟨next, -, hcall⟩ := Option.bind_eq_some_iff.mp hcall
  obtain ⟨next', -, hcall⟩ := Option.bind_eq_some_iff.mp hcall
  obtain ⟨prev', -, hcall⟩ := Option.bind_eq_some_iff.mp hcall
  cases hcall
  exact ⟨rfl, rfl, rfl⟩

theorem removeUninit_kept (hcall : sc.removeUninit h = some (sc', h', idx)) : Kept h h' := by
  obtain ⟨⟨sc₁, h₁⟩, hremove, hcall⟩ := Option.bind_eq_some_iff.mp hcall
  cases hcall
  exact removeFrom_kept hremove

theorem allocatePage_kept (hcall : h.allocatePage (fixedBackend B) idx pgNum = some (h', ptr)) :
    Kept h h' := by
  obtain ⟨⟨ans, back, mem, tree⟩, hback, hcall⟩ := Option.bind_eq_some_iff.mp hcall
  obtain ⟨⟨ans', inner, mem', tree'⟩, -, hback⟩ := Option.bind_eq_some_iff.mp hback
  cases hback
  simp only at hcall
  split at hcall
  · cases hcall
  · cases hcall
    exact ⟨rfl, rfl, rfl⟩

theorem destroyPage_kept (hcall : h.destroyPage (fixedBackend B) idx pgNum = some (h', ptr)) :
    Kept h h' := by
  obtain ⟨-, hcall⟩ := Option.ite_none_right_eq_some.mp hcall
  obtain ⟨⟨back, mem, tree⟩, hback, hcall⟩ := Option.bind_eq_some_iff.mp hcall
  obtain ⟨⟨inner, mem', tree'⟩, -, hback⟩ := Option.bind_eq_some_iff.mp hback
  cases hback
  cases hcall
  exact ⟨rfl, rfl, rfl⟩

theorem insertEty_kept {released : Option Nat}
    (hcall : sc.insertEty (fixedBackend B) h idx = some (sc', h', released)) : Kept h h' := by
  rw [SCAllocator.insertEty] at hcall
  split at hcall
  · obtain ⟨⟨sc₁, h₁, ptr⟩, huninit, hcall⟩ := Option.bind_eq_some_iff.mp hcall
    cases hcall
    obtain ⟨⟨sc₂, h₂⟩, hinsert, huninit⟩ := Option.bind_eq_some_iff.mp huninit
    obtain ⟨⟨h₃, p⟩, hdestroy, huninit⟩ := Option.bind_eq_some_iff.mp huninit
    cases huninit
    exact (insertInto_kept hinsert).trans (destroyPage_kept hdestroy)
  · obtain ⟨⟨sc₁, h₁⟩, hinsert, hcall⟩ := Option.bind_eq_some_iff.mp hcall
    cases hcall
    exact insertInto_kept hinsert

theorem relocate_kept {backPartial : Bool}
    (hcall : sc.relocate (fixedBackend B) h idx backPartial = some (sc', h')) : Kept h h' := by
  rw [SCAllocator.relocate] at hcall
  split at hcall
  · obtain ⟨⟨sc₁, h₁⟩, hremove, hcall⟩ := Option.bind_eq_some_iff.mp hcall
    obtain ⟨released, -, hcall⟩ := Option.bind_eq_some_iff.mp hcall
    obtain ⟨tree, -, hcall⟩ := Option.bind_eq_some_iff.mp hcall
    obtain ⟨⟨sc₂, h₂, r⟩, hinsert, hcall⟩ := Option.bind_eq_some_iff.mp hcall
    cases hcall
    have hkept : Kept h h₁ := by
      cases backPartial with
      | true => exact removeFrom_kept hremove
      | false => exact removeFrom_kept hremove
    have hkept' : Kept h₁ { h₁ with tree } := ⟨rfl, rfl, rfl⟩
    exact (hkept.trans hkept').trans (insertEty_kept hinsert)
  · split at hcall
    · obtain ⟨⟨sc₁, h₁⟩, hremove, hcall⟩ := Option.bind_eq_some_iff.mp hcall
      exact (removeFrom_kept hremove).trans (insertInto_kept hcall)
    · cases hcall
      exact .refl _

theorem deallocateHead_kept {head rest : Nat}
    (hcall : sc.deallocateHead (fixedBackend B) h head = some (sc', h', rest)) : Kept h h' := by
  obtain ⟨v, -, hcall⟩ := Option.bind_eq_some_iff.mp hcall
  simp only at hcall
  split at hcall
  · cases hcall
  · obtain ⟨⟨page, mem, next⟩, -, hcall⟩ := Option.bind_eq_some_iff.mp hcall
    obtain ⟨⟨sc₁, h₁⟩, hrelocate, hcall⟩ := Option.bind_eq_some_iff.mp hcall
    cases hcall
    have hkept := relocate_kept hrelocate
    exact ⟨hkept.created, hkept.pgBump, hkept.regions⟩

theorem deallocateBatch_kept {fuel head : Nat}
    (hcall : SCAllocator.deallocateBatch (fixedBackend B) fuel sc h head = some (sc', h')) :
    Kept h h' := by
  induction fuel generalizing sc h head with
  | zero =>
      obtain ⟨-, hcall⟩ := Option.ite_none_right_eq_some.mp hcall
      cases hcall
      exact .refl _
  | succ fuel ih =>
      rw [SCAllocator.deallocateBatch] at hcall
      split at hcall
      · cases hcall
        exact .refl _
      · obtain ⟨⟨sc₁, h₁, rest⟩, hhead, hcall⟩ := Option.bind_eq_some_iff.mp hcall
        exact (deallocateHead_kept hhead).trans (ih hcall)

/-- `get_uninit` creates a descriptor when the ring is empty. -/
theorem getUninit_kept {mapped : Nat}
    (hcall : sc.getUninit (fixedBackend B) h mapped = some (sc', h', idx, ptr)) :
    (sc.uninitStart ≠ 0 ∧ Kept h h') ∨
    (sc.uninitStart = 0 ∧ h'.created = (h.pgBump.alloc OBJECT_PAGE_SIZE mapped).elim h.created
        (fun r => r.2 :: h.created) ∧ h'.back.pgBump = h.back.pgBump ∧
      h'.back.regions = h.back.regions) := by
  rw [SCAllocator.getUninit] at hcall
  split at hcall
  · next hu =>
      obtain ⟨⟨sc₁, h₁, res⟩, hremove, hcall⟩ := Option.bind_eq_some_iff.mp hcall
      obtain ⟨⟨h₂, p⟩, hpage, hcall⟩ := Option.bind_eq_some_iff.mp hcall
      cases hcall
      exact .inl ⟨hu, (removeUninit_kept hremove).trans (allocatePage_kept hpage)⟩
  · next hu =>
      obtain ⟨⟨bump, memory⟩, hbump, hcall⟩ := Option.bind_eq_some_iff.mp hcall
      simp only at hcall
      split at hcall
      · cases hcall
      · obtain ⟨⟨h₂, p⟩, hpage, hcall⟩ := Option.bind_eq_some_iff.mp hcall
        cases hcall
        have hkept := allocatePage_kept hpage
        rw [hbump]
        exact .inr ⟨not_not.mp hu, hkept.created, hkept.pgBump, hkept.regions⟩

/-- A batch needs at most one new descriptor. -/
theorem allocateBatchV2_kept {align mapped : Nat} {r : Nat × Nat × Option Nat}
    (hcall : sc.allocateBatchV2 (fixedBackend B) h align mapped = some (sc', h', r)) :
    (¬NeedsDesc sc align ∧ Kept h h') ∨
    (NeedsDesc sc align ∧ h'.created = (h.pgBump.alloc OBJECT_PAGE_SIZE mapped).elim h.created
        (fun r => r.2 :: h.created) ∧ h'.back.pgBump = h.back.pgBump ∧
      h'.back.regions = h.back.regions) := by
  rw [SCAllocator.allocateBatchV2] at hcall
  split at hcall
  · next hring =>
      obtain ⟨⟨sc₁, h₁⟩, hremove, hcall⟩ := Option.bind_eq_some_iff.mp hcall
      obtain ⟨⟨sc₂, h₂⟩, hinsert, hcall⟩ := Option.bind_eq_some_iff.mp hcall
      cases hcall
      have hkept := (removeFrom_kept hremove).trans (insertInto_kept hinsert)
      exact .inl ⟨fun needs => needs.1 hring, ⟨hkept.created, hkept.pgBump, hkept.regions⟩⟩
  · next hring =>
      obtain ⟨⟨sc₁, h₁, obj, newPage⟩, hempty, hcall⟩ := Option.bind_eq_some_iff.mp hcall
      obtain ⟨tree, -, hcall⟩ := Option.bind_eq_some_iff.mp hcall
      obtain ⟨⟨sc₂, h₂⟩, hinsert, hcall⟩ := Option.bind_eq_some_iff.mp hcall
      cases hcall
      have hkept := insertInto_kept hinsert
      rw [SCAllocator.getEmpty] at hempty
      split at hempty
      · next he =>
          obtain ⟨⟨sc₃, h₃, res⟩, hremove, hempty⟩ := Option.bind_eq_some_iff.mp hempty
          cases hempty
          have hkept' := removeEmpty_kept hremove
          exact .inl ⟨fun needs => he needs.2.1, hkept.created.trans hkept'.created,
            hkept.pgBump.trans hkept'.pgBump, hkept.regions.trans hkept'.regions⟩
      · next he =>
          obtain ⟨⟨sc₃, h₃, res, p⟩, huninit, hempty⟩ := Option.bind_eq_some_iff.mp hempty
          cases hempty
          obtain ⟨hu, hkept'⟩ | ⟨hu, hcreated, hbump, hregions⟩ := getUninit_kept huninit
          · exact .inl ⟨fun needs => hu needs.2.2, hkept.created.trans hkept'.created,
              hkept.pgBump.trans hkept'.pgBump, hkept.regions.trans hkept'.regions⟩
          · exact .inr ⟨⟨hring, not_not.mp he, hu⟩, hkept.created.trans hcreated,
              hkept.pgBump.trans hbump, hkept.regions.trans hregions⟩

end

end UniAlloc.Cache
