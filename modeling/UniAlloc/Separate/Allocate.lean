import UniAlloc.Separate.Open

/-!
# Allocation

An allocation looks at the partially used pages in turn, and opens a page if none of them has
a chunk that is aligned. Batches fill the partially used pages and then open pages until there
are enough chunks.
-/

namespace UniAlloc.Separate

open FreeList (Block PG_SIZE)
open Radix
open Slab (Config HeldPage Kind Lawful PAGE_SIZE PageBackend RadixFits SameOn)

/-- A chunk of the page is aligned and not out. -/
def HasAligned (c : Config) (sc : SCAllocator) (align idx : Nat) : Prop :=
  ∃ i < c.count, Words.bit (sc.row idx) i = false ∧
    ObjectPage.alignmentOk ((sc.page idx).data + i * c.align) align

variable {σ : Type} {c : Config} {Holds : σ → Mem → RadixTree → Set Block → Prop}
  {B : PageBackend σ} {self self' : SCAllocator} {h h' : Heap σ} {R R' : Kind → List Nat}
  {kind : Kind} {loose newPage : Option Nat} {idx align : Nat}

/-- A page has at most `count` chunks out. -/
theorem Pages.counter_le (pages : Pages c Holds self h loose) (hlt : idx < self.pages.len) :
    (self.page idx).counter ≤ c.count := by
  rw [pages.counter idx hlt]
  exact Words.card_ones_le _ _

/-- An allocation in a page hands out an aligned chunk, if the page has one. -/
theorem Pages.allocateIn_spec (law : Lawful B Holds) (pages : Pages c Holds self h loose)
    (hlt : idx < self.pages.len) (hdata : (self.page idx).data ≠ 0)
    (hcounter : (self.page idx).counter < c.count) (align : Nat) :
    (∃ self' x, self.allocateIn align idx = some (self', x) ∧ x ≠ 0 ∧ Edit self self' idx ∧
      self'.page idx = { self.page idx with counter := (self.page idx).counter + 1 } ∧
      Pages c Holds self' h loose ∧ Gives c self self' [x] ∧ HasAligned c self align idx) ∨
    (self.allocateIn align idx = some (self, 0) ∧ ¬HasAligned c self align idx) := by
  have shaped := pages.shaped
  have hlen := shaped.length_row hlt
  have hunfold : self.allocateIn align idx =
      some (self.store idx
        ((self.page idx).allocate align (self.row idx) c.count c.align c.pgNum).1
        ((self.page idx).allocate align (self.row idx) c.count c.align c.pgNum).2.1,
        ((self.page idx).allocate align (self.row idx) c.count c.align c.pgNum).2.2) := by
    simp only [SCAllocator.allocateIn, SCAllocator.get_page hlt, shaped.slice hlt, shaped.pgNum,
      shaped.pgCount, shaped.pgAlign, bind, Option.bind]
  rw [hunfold]
  obtain ⟨i, hi, hclear, hok, hallocate⟩ | ⟨hallocate, hnone⟩ :=
    ObjectPage.allocate_spec pages.tight (self.page idx) align hlen hcounter
  · rw [hallocate]
    have hword : i / 32 < (self.row idx).length := by
      have := le_wordCount c.count
      omega
    obtain ⟨edit, hpage, hrow⟩ := Edit.store shaped hlt
      ((Words.length_setBit (self.row idx) i).trans hlen)
      { self.page idx with counter := (self.page idx).counter + 1 }
    obtain ⟨pages', gives⟩ := pages.take law edit [i] hlt hdata hpage
      (List.nodup_singleton i) (fun j hj => List.mem_singleton.mp hj ▸ hi)
      (fun j hj => List.mem_singleton.mp hj ▸ hclear) (by
        intro j _
        rw [hrow, Words.bit_setBit (by decide) hword]
        by_cases hj : j = i <;> simp [hj])
    have hne : (self.page idx).data + i * c.align ≠ 0 :=
      (Nat.add_pos_left (Nat.pos_of_ne_zero hdata) _).ne'
    exact .inl ⟨_, _, rfl, hne, edit, hpage, pages', gives, i, hi, hclear, hok⟩
  · rw [hallocate, SCAllocator.store_self hlt]
    refine .inr ⟨rfl, ?_⟩
    rintro ⟨i, hi, hclear, hok⟩
    exact hnone i hi hclear hok

/-- A page from which chunks have been taken is filed anew if it has become full. -/
theorem Filed.moveFull_spec (filed : Filed c self R none) (edit : Edit self self' idx)
    (shaped : Shaped c self') (hidx : idx ∈ R .partially) (hdata : (self'.page idx).data ≠ 0)
    (hcounter : (self'.page idx).counter ≤ c.count) :
    ∃ self'' R', self'.moveFull idx = some self'' ∧ Filed c self'' R' none ∧
      SamePages self' self'' := by
  have hlt : idx < self'.pages.len := edit.len ▸ filed.lt hidx
  by_cases hfull : c.count ≤ (self'.page idx).counter
  · obtain ⟨self₁, hremove, filed₁, same₁⟩ := filed.edit_remove edit hidx
    obtain ⟨self₂, hinsert, filed₂, same₂⟩ := filed₁.insert .full
      (by rw [same₁.page]; exact ⟨hdata, Nat.le_antisymm hcounter hfull⟩)
    refine ⟨self₂, _, ?_, filed₂, same₁.trans same₂⟩
    simp only [SCAllocator.moveFull, SCAllocator.get_page hlt, ObjectPage.isFull, shaped.pgCount,
      hfull, decide_true, if_true, SCAllocator.removePartial, hremove, SCAllocator.insertFull,
      hinsert, bind, Option.bind]
  · refine ⟨self', R, ?_, filed.edit_belongs edit hidx ⟨hdata, Nat.lt_of_not_le hfull⟩,
      ⟨rfl, rfl, rfl, rfl, rfl⟩⟩
    simp only [SCAllocator.moveFull, SCAllocator.get_page hlt, ObjectPage.isFull, shaped.pgCount,
      hfull, decide_false, Bool.false_eq_true, if_false, bind, Option.bind]

/-- A page that has been opened is filed by its counter. -/
theorem Filed.fileAway_spec (filed : Filed c self R (some idx)) (shaped : Shaped c self)
    (hlt : idx < self.pages.len) (hdata : (self.page idx).data ≠ 0)
    (hcounter : (self.page idx).counter ≤ c.count) :
    ∃ self' R', self.fileAway idx = some self' ∧ Filed c self' R' none ∧ SamePages self self' ∧
      ((self.page idx).counter < c.count → idx ∈ R' .partially) := by
  by_cases hfull : c.count ≤ (self.page idx).counter
  · obtain ⟨self₁, hinsert, filed₁, same⟩ := filed.insert .full
      ⟨hdata, Nat.le_antisymm hcounter hfull⟩
    refine ⟨self₁, _, ?_, filed₁, same, fun hless => absurd hfull (Nat.not_le.mpr hless)⟩
    simp only [SCAllocator.fileAway, SCAllocator.get_page hlt, ObjectPage.isFull, shaped.pgCount,
      hfull, decide_true, if_true, SCAllocator.insertFull, hinsert, bind, Option.bind]
  · obtain ⟨self₁, hinsert, filed₁, same⟩ := filed.insert .partially
      ⟨hdata, Nat.lt_of_not_le hfull⟩
    refine ⟨self₁, _, ?_, filed₁, same, ?_⟩
    · simp only [SCAllocator.fileAway, SCAllocator.get_page hlt, ObjectPage.isFull,
        shaped.pgCount, hfull, decide_false, Bool.false_eq_true, if_false,
        SCAllocator.insertPartial, hinsert, bind, Option.bind]
    · intro _
      rw [Function.update_self]
      exact List.mem_append_right _ (List.mem_singleton_self _)

namespace Settled

/-- A partially used page gives a chunk, and it moves if it was its last one. -/
theorem allocateHead_spec (law : Lawful B Holds) (settled : Settled c Holds self h R)
    (align : Nat) (hidx : idx ∈ R .partially) :
    (∃ self₁ self' R' x, self.allocateIn align idx = some (self₁, x) ∧ x ≠ 0 ∧
      self₁.moveFull idx = some self' ∧ Settled c Holds self' h R' ∧ Gives c self self' [x] ∧
      HasAligned c self align idx) ∨
    (self.allocateIn align idx = some (self, 0) ∧ ¬HasAligned c self align idx) := by
  have hlt := settled.lt hidx
  obtain ⟨hdata, hcounter⟩ := settled.filed.belongs hidx
  obtain ⟨self₁, x, hcall, hx, edit, hpage, pages, gives, has⟩ | hnone :=
    settled.pages.allocateIn_spec law hlt hdata hcounter align
  · obtain ⟨self', R', hmove, filed, same⟩ := settled.filed.moveFull_spec edit pages.shaped hidx
      (by rw [hpage]; exact hdata) (by rw [hpage]; exact hcounter)
    exact .inl ⟨self₁, self', R', x, hcall, hx, hmove, ⟨pages.same same, filed⟩,
      gives.same same, has⟩
  · exact .inr hnone

/-- The loop ends with a chunk, or no page from `head` on has one. -/
theorem allocatePartial_spec (law : Lawful B Holds) (settled : Settled c Holds self h R)
    (align : Nat) {p q : List Nat} {head fuel : Nat} (hring : R .partially = p ++ head :: q)
    (hfuel : q.length < fuel) :
    (∃ self' R' x, SCAllocator.allocatePartial align fuel self head = some (self', x) ∧ x ≠ 0 ∧
      Settled c Holds self' h R' ∧ Gives c self self' [x] ∧
      ∃ idx ∈ head :: q, HasAligned c self align idx) ∨
    (SCAllocator.allocatePartial align fuel self head = some (self, 0) ∧
      ∀ idx ∈ head :: q, ¬HasAligned c self align idx) := by
  induction q generalizing p head fuel with
  | nil =>
      obtain ⟨fuel, rfl⟩ := Nat.exists_eq_add_one_of_ne_zero (Nat.ne_of_gt hfuel)
      have hhead : head ∈ R .partially := by
        rw [hring]
        exact List.mem_append_right _ List.mem_cons_self
      have hnext := (hring ▸ settled.filed.threads.ring .partially).linked.next_append
      obtain ⟨self₁, self', R', x, hcall, hx, hmove, settled', gives, has⟩ | ⟨hcall, hnone⟩ :=
        settled.allocateHead_spec law align hhead
      · refine .inl ⟨self', R', x, ?_, hx, settled', gives, head, List.mem_cons_self, has⟩
        simp only [SCAllocator.allocatePartial, hcall, if_neg hx, hmove, bind, Option.bind]
      · -- the next page is the first one
        have hstart : self.pages.next head = self.start .partially := by
          rw [hnext]
          symm
          apply settled.filed.threads.start .partially
          rw [hring]
          cases p with
          | nil => rfl
          | cons a p => rfl
        refine .inr ⟨?_, ?_⟩
        · simp only [SCAllocator.allocatePartial, hcall, if_true,
            ArrayLinkedList.getNext_eq (settled.lt hhead), hstart, bind, Option.bind]
        · intro idx hidx
          rw [List.mem_singleton.mp hidx]
          exact hnone
  | cons y q ih =>
      obtain ⟨fuel, rfl⟩ := Nat.exists_eq_add_one_of_ne_zero (Nat.ne_of_gt (Nat.zero_lt_of_lt hfuel))
      have hhead : head ∈ R .partially := by
        rw [hring]
        exact List.mem_append_right _ List.mem_cons_self
      have hnext := (hring ▸ settled.filed.threads.ring .partially).linked.next_append
      obtain ⟨self₁, self', R', x, hcall, hx, hmove, settled', gives, has⟩ | ⟨hcall, hnone⟩ :=
        settled.allocateHead_spec law align hhead
      · refine .inl ⟨self', R', x, ?_, hx, settled', gives, head, List.mem_cons_self, has⟩
        simp only [SCAllocator.allocatePartial, hcall, if_neg hx, hmove, bind, Option.bind]
      · -- the next page is not the first one
        have hnext : self.pages.next head = y := hnext
        have hstart : y ≠ self.start .partially := by
          obtain ⟨a, m, hp⟩ : ∃ a m, p ++ [head] = a :: m :=
            List.exists_cons_of_ne_nil (List.append_ne_nil_of_right_ne_nil _ (List.cons_ne_nil _ _))
          have hsplit : R .partially = a :: m ++ y :: q := by
            rw [hring, ← hp, List.append_assoc]
            rfl
          have nodup := settled.filed.threads.nodup .partially
          rw [hsplit] at nodup
          rw [settled.filed.threads.start .partially a (by rw [hsplit]; rfl)]
          rintro rfl
          exact (List.nodup_cons.mp nodup).1 (List.mem_append_right _ List.mem_cons_self)
        have hstep : SCAllocator.allocatePartial align (fuel + 1) self head =
            SCAllocator.allocatePartial align fuel self y := by
          simp only [SCAllocator.allocatePartial, hcall, if_true,
            ArrayLinkedList.getNext_eq (settled.lt hhead), hnext, if_neg hstart, bind, Option.bind]
        rw [hstep]
        have hring' : R .partially = (p ++ [head]) ++ y :: q := by
          rw [hring, List.append_assoc]
          rfl
        obtain ⟨self', R', x, hcall', hx, settled', gives, idx, hidx, has⟩ | ⟨hcall', hnone'⟩ :=
          ih hring' (Nat.lt_of_succ_lt_succ hfuel)
        · exact .inl ⟨self', R', x, hcall', hx, settled', gives, idx,
            List.mem_cons_of_mem _ hidx, has⟩
        · refine .inr ⟨hcall', ?_⟩
          intro idx hidx
          obtain rfl | hidx := List.mem_cons.mp hidx
          · exact hnone
          · exact hnone' idx hidx

theorem tryPartial_spec (law : Lawful B Holds) (settled : Settled c Holds self h R)
    (align : Nat) :
    (∃ self' R' x, self.tryPartial align = some (self', x) ∧ x ≠ 0 ∧
      Settled c Holds self' h R' ∧ Gives c self self' [x] ∧
      ∃ idx ∈ R .partially, HasAligned c self align idx) ∨
    (self.tryPartial align = some (self, 0) ∧
      ∀ idx ∈ R .partially, ¬HasAligned c self align idx) := by
  by_cases hpos : 0 < self.count .partially
  · rw [SCAllocator.tryPartial, if_pos hpos]
    have hlen : 0 < (R .partially).length := settled.filed.threads.count .partially ▸ hpos
    obtain ⟨a, m, hR⟩ := List.exists_cons_of_length_pos hlen
    have hstart := settled.filed.threads.start .partially a (by rw [hR]; rfl)
    -- the loop has a round for each page, and the ring is not longer than the vector
    have hfuel : m.length < self.pages.len := by
      have hsub : (R .partially).length ≤ self.pages.len := by
        have hrange : R .partially ⊆ List.range self.pages.len :=
          fun x hx => List.mem_range.mpr (settled.lt hx)
        have hle := ((settled.filed.threads.nodup .partially).subperm hrange).length_le
        rwa [List.length_range] at hle
      rw [hR, List.length_cons] at hsub
      exact hsub
    have hspec := settled.allocatePartial_spec law align (p := []) hR hfuel
    rw [hstart, hR]
    exact hspec
  · rw [SCAllocator.tryPartial, if_neg hpos]
    refine .inr ⟨rfl, ?_⟩
    intro idx hidx
    have hlen := List.length_pos_of_mem hidx
    rw [← settled.filed.threads.count] at hlen
    exact absurd hlen hpos

end Settled

/-- A partially used page has an aligned chunk that is not out, or the page that is opened
has an aligned chunk. -/
def CanServe (B : PageBackend σ) (c : Config) (sc : SCAllocator) (h : Heap σ)
    (R : Kind → List Nat) (align : Nat) : Prop :=
  (∃ idx ∈ R .partially, HasAligned c sc align idx) ∨
    if 0 < sc.count .empty then
      ∃ i < c.count,
        ObjectPage.alignmentOk ((sc.page (sc.start .empty)).data + i * c.align) align
    else
      ∀ ptr r, B.alloc h.back h.mem h.tree (PAGE_SIZE * c.pgNum) = some (ptr, r) →
        ∃ i < c.count, ObjectPage.alignmentOk (ptr + i * c.align) align

/-- Every address is aligned to a byte. -/
theorem canServe_one (tight : Tight c) : CanServe B c self h R 1 := by
  have hok : ∀ addr, ObjectPage.alignmentOk addr 1 := by
    intro addr
    have hmask : (1 + (2 ^ 64 - 1)) % 2 ^ 64 = 0 := by decide
    rw [ObjectPage.alignmentOk, hmask, Nat.and_zero]
    rfl
  refine .inr ?_
  split
  · exact ⟨0, tight.count_pos, hok _⟩
  · intro ptr r _
    exact ⟨0, tight.count_pos, hok _⟩

/-- All chunks of a page that has been opened are free. -/
theorem Opened.hasAligned_iff (opened : Opened c Holds self h R idx newPage) :
    HasAligned c self align idx ↔
      ∃ i < c.count, ObjectPage.alignmentOk ((self.page idx).data + i * c.align) align := by
  constructor
  · rintro ⟨i, hi, -, hok⟩
    exact ⟨i, hi, hok⟩
  · rintro ⟨i, hi, hok⟩
    exact ⟨i, hi, opened.pages.not_bit opened.lt opened.counter hi, hok⟩

namespace Settled

/-- An allocation hands out a chunk, or it opens a page in vain, or the backend refuses. -/
theorem allocate_spec (law : Lawful B Holds) (grants : Grants B Holds c)
    (settled : Settled c Holds self h R) (align : Nat) :
    (∃ self' h' R' x, self.allocate B h align = .ok (self', h', some x) ∧
      Settled c Holds self' h' R' ∧ Gives c self self' [x] ∧ CanServe B c self h R align) ∨
    (∃ self' h' R' idx, self.allocate B h align = .ok (self', h', none) ∧
      Settled c Holds self' h' R' ∧ Gives c self self' [] ∧ ¬CanServe B c self h R align ∧
      idx ∈ R' .partially ∧ (self'.page idx).counter = 0) ∨
    (self.allocate B h align = .error .refused ∧ CanServe B c self h R align) := by
  obtain ⟨self', R', x, htry, hx, settled', gives, has⟩ | ⟨htry, hnone⟩ :=
    settled.tryPartial_spec law align
  · refine .inl ⟨self', h, R', x, ?_, settled', gives, .inl has⟩
    simp only [SCAllocator.allocate, htry, orPanic, bind, Except.bind, ne_eq, hx, not_false_iff,
      if_true]
    rfl
  · have hpartial : ¬∃ idx ∈ R .partially, HasAligned c self align idx := by
      rintro ⟨idx, hidx, has⟩
      exact hnone idx hidx has
    obtain ⟨hempty, halloc, hget⟩ | ⟨self₁, h₁, R₁, idx, newPage, hget, opened, hout, horigin⟩ :=
      settled.getEmpty_spec law grants
    · refine .inr (.inr ⟨?_, .inr ?_⟩)
      · simp only [SCAllocator.allocate, htry, orPanic, bind, Except.bind, ne_eq,
          not_true_eq_false, if_false, hget]
      · rw [hempty, if_neg (Nat.lt_irrefl 0), halloc]
        exact fun _ _ hnone => absurd hnone.symm (Option.some_ne_none _)
    · have hserve : CanServe B c self h R align ↔ HasAligned c self₁ align idx := by
        rw [CanServe, opened.hasAligned_iff, or_iff_right hpartial]
        obtain ⟨hpos, hdata⟩ | ⟨hzero, r, halloc⟩ := horigin
        · rw [if_pos hpos, hdata]
        · rw [hzero, if_neg (Nat.lt_irrefl 0), halloc]
          constructor
          · intro hall
            exact hall _ r rfl
          · rintro hex ptr r' ⟨⟩
            exact hex
      have hcounter : (self₁.page idx).counter < c.count := by
        rw [opened.counter]
        exact opened.pages.tight.count_pos
      obtain ⟨self₂, x, hcall, hx, edit, hpage, pages₂, gives, has⟩ | ⟨hcall, hnot⟩ :=
        opened.pages.allocateIn_spec law opened.lt opened.mapped hcounter align
      · obtain ⟨self₃, R₃, hfile, filed₃, same, -⟩ :=
          (opened.filed.edit edit).fileAway_spec pages₂.shaped (edit.len ▸ opened.lt)
            (by rw [hpage]; exact opened.mapped) (pages₂.counter_le (edit.len ▸ opened.lt))
        obtain ⟨tree, hregister, settled'⟩ := filed₃.register law (pages₂.same same)
          (same.len ▸ edit.len ▸ opened.lt) (by rw [same.page, hpage]; exact opened.mapped)
          (by rw [same.page, hpage]; exact opened.address)
        refine .inl ⟨self₃, { h₁ with tree }, R₃, x, ?_, settled', ?_, hserve.mpr has⟩
        · simp only [SCAllocator.allocate, htry, orPanic, bind, Except.bind, ne_eq,
            not_true_eq_false, if_false, hget, hcall, hfile, hregister, hx]
          rfl
        · have first : Gives c self self₁ [] := Gives.of_out hout
          exact (first.append gives).same same
      · obtain ⟨self₃, R₃, hfile, filed₃, same, hmem⟩ :=
          opened.filed.fileAway_spec opened.pages.shaped opened.lt opened.mapped hcounter.le
        obtain ⟨tree, hregister, settled'⟩ := filed₃.register law (opened.pages.same same)
          (same.len ▸ opened.lt) (by rw [same.page]; exact opened.mapped)
          (by rw [same.page]; exact opened.address)
        refine .inr (.inl ⟨self₃, { h₁ with tree }, R₃, idx, ?_, settled', ?_,
          fun serve => hnot (hserve.mp serve), hmem hcounter, ?_⟩)
        · simp only [SCAllocator.allocate, htry, orPanic, bind, Except.bind, ne_eq,
            not_true_eq_false, if_false, hget, hcall, hfile, hregister, if_true]
          rfl
        · exact (Gives.of_out hout).same same
        · rw [same.page]
          exact opened.counter

end Settled

end UniAlloc.Separate
