import UniAlloc.Separate.Allocate

/-!
# Batches

`allocate_batch` hands out a chunk or a whole page. `allocate_batch_v2` fills an array: its
last place with a single chunk, and the others from the partially used pages and then from
pages that are opened.
-/

namespace UniAlloc.Separate

open FreeList (Block PG_SIZE)
open Radix
open Slab (Config HeldPage Kind Lawful PAGE_SIZE PageBackend RadixFits SameOn)

variable {σ : Type} {c : Config} {Holds : σ → Mem → RadixTree → Set Block → Prop}
  {B : PageBackend σ} {self self' : SCAllocator} {h h' : Heap σ} {R R' : Kind → List Nat}
  {kind : Kind} {loose newPage : Option Nat} {idx align count wanted : Nat}
  {chunks chunks' : List Nat}

/-- A page gives as many chunks as are wanted or as it has, and at least one. -/
theorem Pages.takeBatch_spec (law : Lawful B Holds) (pages : Pages c Holds self h loose)
    (hlt : idx < self.pages.len) (hdata : (self.page idx).data ≠ 0)
    (hcounter : (self.page idx).counter < c.count) (hwanted : 0 < wanted) :
    ∃ obj bitfield chunks,
      (self.page idx).allocateBatch wanted (self.row idx) c.count c.align =
        some (obj, bitfield, chunks) ∧
      obj.data = (self.page idx).data ∧ 0 < chunks.length ∧ chunks.length ≤ wanted ∧
      obj.counter = (self.page idx).counter + chunks.length ∧
      Edit self (self.store idx obj bitfield) idx ∧ (self.store idx obj bitfield).page idx = obj ∧
      Pages c Holds (self.store idx obj bitfield) h loose ∧
      Gives c self (self.store idx obj bitfield) chunks := by
  have hlen := pages.shaped.length_row hlt
  obtain ⟨bitfield, is, hcall, takes, hin, hle, hall⟩ :=
    ObjectPage.allocateBatch_spec (self.page idx) hlen hcounter hwanted
  obtain ⟨edit, hpage, hrow⟩ := Edit.store pages.shaped hlt (takes.length.trans hlen)
    { self.page idx with counter := (self.page idx).counter + is.length }
  obtain ⟨pages', gives⟩ := pages.take law edit is hlt hdata hpage takes.nodup hin takes.clear
    fun i _ => by rw [hrow, takes.bit]
  have hpos : 0 < is.length := by
    by_contra hnone
    have hnil : is = [] := List.eq_nil_of_length_eq_zero (Nat.eq_zero_of_not_pos hnone)
    -- a page that gives nothing is full
    have hfull : (Words.ones (self.row idx) c.count).card = c.count := by
      rw [Words.card_ones_eq_iff]
      intro i hi
      have hset := hall (by rw [hnil]; exact hwanted) i hi
      rwa [takes.bit, hnil, decide_eq_false List.not_mem_nil, Bool.or_false] at hset
    rw [← pages.counter idx hlt] at hfull
    omega
  refine ⟨_, bitfield, _, hcall, rfl, ?_, ?_, ?_, edit, hpage, pages', gives⟩
  · rwa [List.length_map]
  · rwa [List.length_map]
  · rw [List.length_map]

/-- A page without chunks out gives all of them. -/
theorem Pages.takeAll_spec (law : Lawful B Holds) (pages : Pages c Holds self h loose)
    (hlt : idx < self.pages.len) (hdata : (self.page idx).data ≠ 0)
    (hcounter : (self.page idx).counter = 0) :
    ∃ bitfield, (self.page idx).allocateAll (self.row idx) c.count =
        ({ self.page idx with counter := c.count }, bitfield, (self.page idx).data) ∧
      Edit self (self.store idx { self.page idx with counter := c.count } bitfield) idx ∧
      (self.store idx { self.page idx with counter := c.count } bitfield).page idx =
        { self.page idx with counter := c.count } ∧
      Pages c Holds (self.store idx { self.page idx with counter := c.count } bitfield) h loose ∧
      Gives c self (self.store idx { self.page idx with counter := c.count } bitfield)
        (c.chunks (self.page idx).data) := by
  have hlen := pages.shaped.length_row hlt
  have hlen' : ((self.row idx).map fun _ => BitVec.allOnes 32).length = wordCount c.count :=
    (List.length_map _).trans hlen
  obtain ⟨edit, hpage, hrow⟩ := Edit.store pages.shaped hlt hlen'
    { self.page idx with counter := c.count }
  obtain ⟨pages', gives⟩ := pages.take law edit (List.range c.count) hlt hdata
    (by rw [hpage, hcounter, List.length_range, Nat.zero_add]) List.nodup_range
    (fun i hi => List.mem_range.mp hi)
    (fun i hi => pages.not_bit hlt hcounter (List.mem_range.mp hi)) (by
      intro i hi
      have hword : i < 32 * (self.row idx).length := by
        have := le_wordCount c.count
        omega
      rw [hrow, Words.bit_allOnes (by decide) hword, decide_eq_true (List.mem_range.mpr hi),
        Bool.or_true])
  exact ⟨_, rfl, edit, hpage, pages', gives⟩

/-- The chunks that an answer of `allocate_batch` stands for. -/
def handed : Option Nat × Nat × Nat → List Nat
  | (some ptr, _, 0) => [ptr]
  | (some ptr, stride, n) => (List.range n).map fun i => ptr + i * stride
  | (none, _, _) => []

theorem handed_page (tight : Tight c) (ptr : Nat) :
    handed (some ptr, c.align, c.count) = c.chunks ptr := by
  obtain ⟨n, hn⟩ := Nat.exists_eq_add_one_of_ne_zero tight.count_pos.ne'
  rw [Config.chunks, hn]
  rfl

namespace Settled

theorem allocateBatch_spec (law : Lawful B Holds) (grants : Grants B Holds c)
    (settled : Settled c Holds self h R) (align : Nat) :
    (∃ self' h' R' ans, self.allocateBatch B h align = .ok (self', h', ans) ∧
      Settled c Holds self' h' R' ∧ Gives c self self' (handed ans)) ∨
    self.allocateBatch B h align = .error .refused := by
  obtain ⟨self', R', x, htry, hx, settled', gives, has⟩ | ⟨htry, hnone⟩ :=
    settled.tryPartial_spec law align
  · refine .inl ⟨self', h, R', (some x, self'.pgAlign, 0), ?_, settled', gives⟩
    simp only [SCAllocator.allocateBatch, htry, orPanic, bind, Except.bind, ne_eq, hx,
      not_false_iff, if_true]
    rfl
  · obtain ⟨-, -, hget⟩ | ⟨self₁, h₁, R₁, idx, newPage, hget, opened, hout, -⟩ :=
      settled.getEmpty_spec law grants
    · refine .inr ?_
      simp only [SCAllocator.allocateBatch, htry, orPanic, bind, Except.bind, ne_eq,
        not_true_eq_false, if_false, hget]
    · have shaped := opened.pages.shaped
      obtain ⟨bitfield, hall, edit, hpage, pages₂, gives⟩ :=
        opened.pages.takeAll_spec law opened.lt opened.mapped opened.counter
      obtain ⟨self₃, R₃, hfile, filed₃, same, -⟩ :=
        (opened.filed.edit edit).fileAway_spec pages₂.shaped (edit.len ▸ opened.lt)
          (by rw [hpage]; exact opened.mapped) (pages₂.counter_le (edit.len ▸ opened.lt))
      obtain ⟨tree, hregister, settled'⟩ := filed₃.register law (pages₂.same same)
        (same.len ▸ edit.len ▸ opened.lt) (by rw [same.page, hpage]; exact opened.mapped)
        (by rw [same.page, hpage]; exact opened.address)
      refine .inl ⟨self₃, { h₁ with tree }, R₃, (some (self₁.page idx).data, c.align, c.count), ?_,
        settled', ?_⟩
      · simp only [SCAllocator.allocateBatch, htry, orPanic, bind, Except.bind, ne_eq,
          not_true_eq_false, if_false, hget, SCAllocator.get_page opened.lt,
          shaped.slice opened.lt, shaped.pgCount, hall, hfile, hregister, opened.mapped,
          settled'.pages.shaped.pgAlign, settled'.pages.shaped.pgCount]
        rfl
      · rw [handed_page opened.pages.tight]
        exact ((Gives.of_out hout).append gives).same same

end Settled

/-- `chunks` have been written from `start` on. -/
structure Wrote (before : List Nat) (start : Nat) (chunks after : List Nat) : Prop where
  length : after.length = before.length
  take : after.take (start + chunks.length) = before.take start ++ chunks
  drop : after.drop (start + chunks.length) = before.drop (start + chunks.length)

namespace Wrote

variable {before middle after : List Nat} {start : Nat}

theorem refl (before : List Nat) (start : Nat) : Wrote before start [] before :=
  ⟨rfl, by simp, rfl⟩

theorem append (first : Wrote before start chunks middle)
    (second : Wrote middle (start + chunks.length) chunks' after) :
    Wrote before start (chunks ++ chunks') after := by
  refine ⟨second.length.trans first.length, ?_, ?_⟩
  · rw [List.length_append, ← Nat.add_assoc, second.take, first.take, List.append_assoc]
  · rw [List.length_append, ← Nat.add_assoc, second.drop, ← List.drop_drop, first.drop,
      List.drop_drop]

theorem of_writeFrom (before : List Nat) (start : Nat) (chunks : List Nat)
    (hfits : start + chunks.length ≤ before.length) :
    ∃ after, SCAllocator.writeFrom before start chunks = some after ∧
      Wrote before start chunks after := by
  have hfront : (before.take start ++ chunks).length = start + chunks.length := by
    rw [List.length_append, List.length_take]
    omega
  refine ⟨_, if_pos hfits, ?_, ?_, ?_⟩
  · rw [List.length_append, hfront, List.length_drop]
    omega
  · rw [← hfront, List.take_left]
  · rw [← hfront, List.drop_left]

end Wrote

namespace Settled

/-- The loop ends when there are enough chunks, or when no page is partially used. -/
theorem fillPartial_spec (law : Lawful B Holds) (settled : Settled c Holds self h R)
    (count fuel : Nat) (resArray : List Nat) (allocated : Nat) (hroom : count ≤ resArray.length)
    (hle : allocated ≤ count) (hfuel : count - allocated < fuel) :
    ∃ self' R' resArray' chunks,
      SCAllocator.fillPartial count fuel self resArray allocated =
        some (self', resArray', allocated + chunks.length) ∧
      Settled c Holds self' h R' ∧ Gives c self self' chunks ∧
      Wrote resArray allocated chunks resArray' ∧ allocated + chunks.length ≤ count := by
  induction fuel generalizing self R resArray allocated with
  | zero => exact absurd hfuel (Nat.not_lt_zero _)
  | succ fuel ih =>
      by_cases hmore : 0 < self.count .partially ∧ allocated < count
      · have hstart := settled.filed.threads.start_mem hmore.1
        have hlt := settled.lt hstart
        have shaped := settled.pages.shaped
        obtain ⟨hdata, hcounter⟩ := settled.filed.belongs hstart
        obtain ⟨obj, bitfield, chunks, hcall, hobj, hpos, hchunks, -, edit, hpage, pages, gives⟩ :=
          settled.pages.takeBatch_spec law hlt hdata hcounter (Nat.sub_pos_of_lt hmore.2)
        obtain ⟨resArray₁, hwrite, wrote⟩ := Wrote.of_writeFrom resArray allocated chunks (by omega)
        obtain ⟨self₂, R₂, hmove, filed₂, same⟩ := settled.filed.moveFull_spec edit pages.shaped
          hstart (by rw [hpage, hobj]; exact hdata) (pages.counter_le (edit.len ▸ hlt))
        have settled₂ : Settled c Holds self₂ h R₂ := ⟨pages.same same, filed₂⟩
        obtain ⟨self', R', resArray', chunks', hrest, settled', gives', wrote', hle'⟩ :=
          ih settled₂ resArray₁ (allocated + chunks.length) (wrote.length ▸ hroom) (by omega)
            (by omega)
        refine ⟨self', R', resArray', chunks ++ chunks', ?_, settled',
          (gives.same same).append gives', wrote.append wrote', ?_⟩
        · simp only [SCAllocator.fillPartial, if_pos hmore, SCAllocator.get_page hlt,
            shaped.slice hlt, shaped.pgCount, shaped.pgAlign, hcall, hwrite, hmove, hrest, bind,
            Option.bind, List.length_append, Nat.add_assoc]
        · rw [List.length_append]
          omega
      · refine ⟨self, R, resArray, [], ?_, settled, Gives.refl c self, Wrote.refl _ _, hle⟩
        rw [SCAllocator.fillPartial, if_neg hmore]
        rfl

end Settled

/-- A page that has been opened gives chunks to a batch and is filed. -/
theorem Opened.openBatch_spec (law : Lawful B Holds) (opened : Opened c Holds self h R idx newPage)
    (hwanted : 0 < wanted) :
    ∃ self' R' chunks, self.openBatch idx wanted = some (self', chunks) ∧
      0 < chunks.length ∧ chunks.length ≤ wanted ∧ Filed c self' R' none ∧
      Pages c Holds self' h (newPage.map fun _ => idx) ∧ Gives c self self' chunks ∧
      idx < self'.pages.len ∧ (self'.page idx).data = (self.page idx).data := by
  have hlt := opened.lt
  have hdata := opened.mapped
  have shaped := opened.pages.shaped
  by_cases hall : c.count ≤ wanted
  · obtain ⟨bitfield, hcall, edit, hpage, pages, gives⟩ :=
      opened.pages.takeAll_spec law hlt hdata opened.counter
    obtain ⟨self', hinsert, filed, same⟩ := (opened.filed.edit edit).insert .full
      (by rw [hpage]; exact ⟨hdata, rfl⟩)
    refine ⟨self', _, c.chunks (self.page idx).data, ?_, ?_, ?_, filed, pages.same same,
      gives.same same, same.len ▸ edit.len ▸ hlt, by rw [same.page, hpage]⟩
    · have shaped' := (pages.same same).shaped
      simp only [SCAllocator.openBatch, SCAllocator.get_page hlt, shaped.slice hlt, shaped.pgCount,
        if_pos hall, hcall, SCAllocator.insertFull, hinsert, shaped'.pgCount, shaped'.pgAlign, bind,
        Option.bind]
      rfl
    · rw [Config.length_chunks]
      exact opened.pages.tight.count_pos
    · rwa [Config.length_chunks]
  · have hcounter : (self.page idx).counter < c.count := by
      rw [opened.counter]
      exact opened.pages.tight.count_pos
    obtain ⟨obj, bitfield, chunks, hcall, hobj, hpos, hchunks, hsum, edit, hpage, pages, gives⟩ :=
      opened.pages.takeBatch_spec law hlt hdata hcounter hwanted
    have hless : obj.counter < c.count := by
      rw [hsum, opened.counter]
      omega
    obtain ⟨self', hinsert, filed, same⟩ := (opened.filed.edit edit).insert .partially
      (by rw [hpage]; exact ⟨hobj ▸ hdata, hless⟩)
    refine ⟨self', _, chunks, ?_, hpos, hchunks, filed, pages.same same, gives.same same,
      same.len ▸ edit.len ▸ hlt, by rw [same.page, hpage, hobj]⟩
    simp only [SCAllocator.openBatch, SCAllocator.get_page hlt, shaped.slice hlt, shaped.pgCount,
      shaped.pgAlign, if_neg hall, hcall, SCAllocator.insertPartial, hinsert, bind, Option.bind]

namespace Settled

/-- The loop ends when there are enough chunks, or when the backend refuses. -/
theorem fillEmpty_spec (law : Lawful B Holds) (grants : Grants B Holds c)
    (settled : Settled c Holds self h R) (count fuel : Nat) (resArray : List Nat)
    (allocated : Nat) (hroom : count ≤ resArray.length) (hle : allocated ≤ count)
    (hfuel : count - allocated < fuel) :
    (∃ self' h' R' resArray' chunks,
      SCAllocator.fillEmpty B count fuel self h resArray allocated =
        .ok (self', h', resArray', allocated + chunks.length) ∧
      Settled c Holds self' h' R' ∧ Gives c self self' chunks ∧
      Wrote resArray allocated chunks resArray' ∧ allocated + chunks.length = count) ∨
    SCAllocator.fillEmpty B count fuel self h resArray allocated = .error .refused := by
  induction fuel generalizing self h R resArray allocated with
  | zero => exact absurd hfuel (Nat.not_lt_zero _)
  | succ fuel ih =>
      by_cases hmore : allocated < count
      · obtain ⟨-, -, hget⟩ | ⟨self₁, h₁, R₁, idx, newPage, hget, opened, hout, -⟩ :=
          settled.getEmpty_spec law grants
        · refine .inr ?_
          simp only [SCAllocator.fillEmpty, if_pos hmore, hget, bind, Except.bind]
        · obtain ⟨self₂, R₂, chunks, hopen, hpos, hchunks, filed₂, pages₂, gives, hlt, hdata⟩ :=
            opened.openBatch_spec law (Nat.sub_pos_of_lt hmore)
          obtain ⟨resArray₁, hwrite, wrote⟩ := Wrote.of_writeFrom resArray allocated chunks (by omega)
          obtain ⟨tree, hregister, settled₂⟩ := filed₂.register law pages₂ hlt
            (by rw [hdata]; exact opened.mapped) (by rw [hdata]; exact opened.address)
          have hstep : SCAllocator.fillEmpty B count (fuel + 1) self h resArray allocated =
              SCAllocator.fillEmpty B count fuel self₂ { h₁ with tree } resArray₁
                (allocated + chunks.length) := by
            simp only [SCAllocator.fillEmpty, if_pos hmore, hget, hopen, hwrite, hregister, orPanic,
              bind, Except.bind]
          rw [hstep]
          obtain ⟨self', h', R', resArray', chunks', hrest, settled', gives', wrote', heq⟩ |
            hrefused := ih settled₂ resArray₁ (allocated + chunks.length)
              (wrote.length ▸ hroom) (by omega) (by omega)
          · refine .inl ⟨self', h', R', resArray', chunks ++ chunks', ?_, settled', ?_,
              wrote.append wrote', ?_⟩
            · rw [hrest, List.length_append, Nat.add_assoc]
            · exact ((Gives.of_out hout).append gives).append gives'
            · rw [List.length_append]
              omega
          · exact .inr hrefused
      · refine .inl ⟨self, h, R, resArray, [], ?_, settled, Gives.refl c self, Wrote.refl _ _, ?_⟩
        · rw [SCAllocator.fillEmpty, if_neg hmore]
          rfl
        · exact Nat.le_antisymm hle (Nat.le_of_not_lt hmore)

/-- The array receives `min(count_p, res_array.len())` chunks, unless the backend refuses. -/
theorem allocateBatchV2_spec (law : Lawful B Holds) (grants : Grants B Holds c)
    (settled : Settled c Holds self h R) (resArray : List Nat) (countP : Nat) :
    (∃ self' h' R' resArray' res,
      self.allocateBatchV2 B h resArray countP = .ok (self', h', resArray', res) ∧
      Settled c Holds self' h' R' ∧
      Gives c self self' (resArray'.take (min countP resArray.length))) ∨
    self.allocateBatchV2 B h resArray countP = .error .refused := by
  rw [SCAllocator.allocateBatchV2]
  dsimp only
  generalize hn : min countP resArray.length = n
  cases n with
  | zero =>
      refine .inl ⟨self, h, R, resArray, none, rfl, settled, ?_⟩
      rw [List.take_zero]
      exact Gives.refl c self
  | succ n =>
      rw [if_neg (Nat.succ_ne_zero n), Nat.add_sub_cancel]
      obtain ⟨self₁, h₁, R₁, x, hcall, settled₁, gives, -⟩ | ⟨self₁, h₁, R₁, idx, -, -, -, hnot, -⟩ |
        ⟨hcall, -⟩ := settled.allocate_spec law grants 1
      · have hset : (resArray.set n x).length = resArray.length := List.length_set
        obtain ⟨self₂, R₂, resArray₂, chunks, hpartial, settled₂, gives₂, wrote₂, hle⟩ :=
          settled₁.fillPartial_spec law n (n + 1) (resArray.set n x) 0 (by omega) (Nat.zero_le n)
            (by omega)
        obtain ⟨self₃, h₃, R₃, resArray₃, chunks', hempty, settled₃, gives₃, wrote₃, heq⟩ |
          hrefused := settled₂.fillEmpty_spec law grants n (n + 1) resArray₂ (0 + chunks.length)
            (by rw [wrote₂.length]; omega) hle (by omega)
        · refine .inl ⟨self₃, h₃, R₃, resArray₃, some x, ?_, settled₃, ?_⟩
          · simp only [hcall, hpartial, hempty, heq, if_true, orPanic, bind, Except.bind]
            rfl
          · have wrote := wrote₂.append wrote₃
            have hlen : 0 + (chunks ++ chunks').length = n := by
              rw [List.length_append]
              omega
            have hlast : n < (resArray.set n x).length := by omega
            -- the array is the chunks of the loops, and then the first chunk
            have hsplit : resArray₃.take (n + 1) = (chunks ++ chunks') ++ [x] := by
              have htake := wrote.take
              have hdrop := wrote.drop
              rw [hlen] at htake hdrop
              rw [List.take_zero, List.nil_append] at htake
              rw [List.take_add, htake, hdrop, List.drop_eq_getElem_cons hlast,
                List.getElem_set_self]
              rfl
            rw [hsplit]
            exact (gives.append (gives₂.append gives₃)).perm List.perm_append_comm
        · refine .inr ?_
          simp only [hcall, hpartial, hrefused, orPanic, bind, Except.bind]
      · exact absurd (canServe_one settled.pages.tight) hnot
      · refine .inr ?_
        simp only [hcall, bind, Except.bind]

end Settled

end UniAlloc.Separate
