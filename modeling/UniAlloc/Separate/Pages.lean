import UniAlloc.Separate.Invariant

/-!
# Pages and chunks

What an operation on one page does to the chunks that are out, and what a page gains or loses
when it gets a run, when it is registered, and when it gives its run back.
-/

namespace UniAlloc.Separate

open FreeList (Block PG_SIZE)
open Radix
open Slab (Config HeldPage Kind Lawful PAGE_SIZE PageBackend RadixFits SameOn)

/-- The chunks have left. -/
structure Gives (c : Config) (sc sc' : SCAllocator) (chunks : List Nat) : Prop where
  nodup : chunks.Nodup
  fresh : ∀ x ∈ chunks, ¬Out c sc x
  out : ∀ x, Out c sc' x ↔ Out c sc x ∨ x ∈ chunks

variable {σ : Type} {c : Config} {Holds : σ → Mem → RadixTree → Set Block → Prop}
  {B : PageBackend σ} {self self' self'' : SCAllocator} {h : Heap σ} {loose : Option Nat}
  {idx idx' j i i' x p : Nat} {is chunks chunks' : List Nat}

namespace Gives

theorem refl (c : Config) (sc : SCAllocator) : Gives c sc sc [] :=
  ⟨List.nodup_nil, nofun, fun x => by simp⟩

/-- Nothing leaves if no chunk is marked. -/
theorem of_out (hout : ∀ x, Out c self' x ↔ Out c self x) : Gives c self self' [] :=
  ⟨List.nodup_nil, nofun, fun x => by simp [hout]⟩

theorem append (first : Gives c self self' chunks) (then_ : Gives c self' self'' chunks') :
    Gives c self self'' (chunks ++ chunks') := by
  refine ⟨?_, ?_, ?_⟩
  · apply first.nodup.append then_.nodup
    intro x hx hx'
    exact then_.fresh x hx' ((first.out x).mpr (.inr hx))
  · intro x hx hout
    obtain hx | hx := List.mem_append.mp hx
    · exact first.fresh x hx hout
    · exact then_.fresh x hx ((first.out x).mpr (.inl hout))
  · intro x
    rw [then_.out, first.out, List.mem_append, or_assoc]

/-- The order of the chunks means nothing. -/
theorem perm (gives : Gives c self self' chunks) (hperm : chunks.Perm chunks') :
    Gives c self self' chunks' :=
  ⟨hperm.nodup_iff.mp gives.nodup, fun x hx => gives.fresh x (hperm.mem_iff.mpr hx),
    fun x => by rw [gives.out, hperm.mem_iff]⟩

end Gives

namespace SamePages

theorem isChunk_iff (same : SamePages self self') :
    IsChunk c self' idx i x ↔ IsChunk c self idx i x := by
  constructor
  · rintro ⟨hlt, hdata, hi, hx⟩
    rw [same.page] at hdata hx
    exact ⟨same.len ▸ hlt, hdata, hi, hx⟩
  · rintro ⟨hlt, hdata, hi, hx⟩
    rw [← same.page] at hdata hx
    exact ⟨same.len ▸ hlt, hdata, hi, hx⟩

theorem out_iff (same : SamePages self self') : Out c self' x ↔ Out c self x := by
  simp only [Out, same.isChunk_iff, same.row]

end SamePages

theorem Gives.same (gives : Gives c self self' chunks) (same : SamePages self' self'') :
    Gives c self self'' chunks :=
  ⟨gives.nodup, gives.fresh, fun x => by rw [same.out_iff, gives.out]⟩

namespace Edit

theorem otherRuns (edit : Edit self self' idx) : otherRuns c self' idx = otherRuns c self idx := by
  ext b
  constructor
  · rintro ⟨j, hlt, hne, hdata, rfl⟩
    rw [edit.page j hne] at hdata ⊢
    exact ⟨j, edit.len ▸ hlt, hne, hdata, rfl⟩
  · rintro ⟨j, hlt, hne, hdata, rfl⟩
    rw [← edit.page j hne] at hdata ⊢
    exact ⟨j, edit.len ▸ hlt, hne, hdata, rfl⟩

theorem isChunk_iff (edit : Edit self self' idx)
    (hdata : (self'.page idx).data = (self.page idx).data) :
    IsChunk c self' j i x ↔ IsChunk c self j i x := by
  have hsame : (self'.page j).data = (self.page j).data := by
    by_cases hj : j = idx
    · rw [hj, hdata]
    · rw [edit.page j hj]
  constructor
  · rintro ⟨hlt, hmapped, hi, hx⟩
    rw [hsame] at hmapped hx
    exact ⟨edit.len ▸ hlt, hmapped, hi, hx⟩
  · rintro ⟨hlt, hmapped, hi, hx⟩
    rw [← hsame] at hmapped hx
    exact ⟨edit.len ▸ hlt, hmapped, hi, hx⟩

end Edit

theorem runs_of_mapped (hlt : idx < self.pages.len) (hdata : (self.page idx).data ≠ 0) :
    runs c self = insert (c.run (self.page idx).data) (otherRuns c self idx) := by
  ext b
  constructor
  · rintro ⟨j, hj, hmapped, rfl⟩
    by_cases hne : j = idx
    · exact .inl (by rw [hne])
    · exact .inr ⟨j, hj, hne, hmapped, rfl⟩
  · rintro (rfl | ⟨j, hj, -, hmapped, rfl⟩)
    · exact ⟨idx, hlt, hdata, rfl⟩
    · exact ⟨j, hj, hmapped, rfl⟩

theorem runs_of_unmapped (hdata : (self.page idx).data = 0) :
    runs c self = otherRuns c self idx := by
  ext b
  constructor
  · rintro ⟨j, hj, hmapped, rfl⟩
    exact ⟨j, hj, fun e => hmapped (e ▸ hdata), hmapped, rfl⟩
  · rintro ⟨j, hj, -, hmapped, rfl⟩
    exact ⟨j, hj, hmapped, rfl⟩

namespace Pages

theorem same (pages : Pages c Holds self h loose) (same : SamePages self self') :
    Pages c Holds self' h loose := by
  have hruns : runs c self' = runs c self := by
    simp only [runs, same.len, same.page]
  obtain ⟨tight, shaped, counter, unmapped, holds, entry, fits, bound⟩ := pages
  rw [← same.len] at counter unmapped entry fits bound
  simp only [← same.page, ← same.row] at counter unmapped entry fits
  exact ⟨tight, shaped.same same, counter, unmapped, hruns ▸ holds, entry, fits, bound⟩

theorem placed (law : Lawful B Holds) (pages : Pages c Holds self h loose)
    (hlt : idx < self.pages.len) (hdata : (self.page idx).data ≠ 0) :
    (c.run (self.page idx).data).Placed :=
  law.placed pages.holds ⟨idx, hlt, hdata, rfl⟩

/-- Pages whose runs have a page in common are the same. -/
theorem eq_of_page (pages : Pages c Holds self h loose) (hlt : idx < self.pages.len)
    (hdata : (self.page idx).data ≠ 0) (hlt' : j < self.pages.len)
    (hdata' : (self.page j).data ≠ 0) (hp : p ∈ (c.run (self.page idx).data).pages)
    (hp' : p ∈ (c.run (self.page j).data).pages) : idx = j := by
  have heq := (pages.entry idx hlt hdata p hp).symm.trans (pages.entry j hlt' hdata' p hp')
  split at heq
  · next hidx =>
      split at heq
      · next hj => exact Option.some.inj (hidx.symm.trans hj)
      · omega
  · split at heq
    · omega
    · omega

/-- The first page of a run. -/
theorem head_mem (law : Lawful B Holds) (pages : Pages c Holds self h loose)
    (hlt : idx < self.pages.len) (hdata : (self.page idx).data ≠ 0) :
    (self.page idx).data / PG_SIZE ∈ (c.run (self.page idx).data).pages := by
  have hpos := (pages.placed law hlt hdata).num_pos
  rw [FreeList.Block.mem_pages]
  exact ⟨le_rfl, Nat.lt_add_of_pos_right hpos⟩

/-- The run of a page is no other run. -/
theorem run_not_mem (law : Lawful B Holds) (pages : Pages c Holds self h loose)
    (hlt : idx < self.pages.len) (hdata : (self.page idx).data ≠ 0) :
    c.run (self.page idx).data ∉ otherRuns c self idx := by
  rintro ⟨j, hj, hne, hdata', hrun⟩
  have hp := pages.head_mem law hlt hdata
  exact hne (pages.eq_of_page hj hdata' hlt hdata (hrun ▸ hp) hp)

theorem chunk_mem_page (law : Lawful B Holds) (pages : Pages c Holds self h loose)
    (chunk : IsChunk c self idx i x) : x / PG_SIZE ∈ (c.run (self.page idx).data).pages :=
  pages.tight.chunk_mem_page (pages.placed law chunk.page chunk.mapped)
    (Config.mem_chunks.mpr ⟨i, chunk.lt, chunk.eq.symm⟩)

/-- A chunk has one page and one number. -/
theorem chunk_unique (law : Lawful B Holds) (pages : Pages c Holds self h loose)
    (chunk : IsChunk c self idx i x) (chunk' : IsChunk c self j i' x) : idx = j ∧ i = i' := by
  obtain rfl := pages.eq_of_page chunk.page chunk.mapped chunk'.page chunk'.mapped
    (pages.chunk_mem_page law chunk) (pages.chunk_mem_page law chunk')
  refine ⟨rfl, ?_⟩
  have heq := chunk.eq.symm.trans chunk'.eq
  exact Nat.eq_of_mul_eq_mul_right pages.tight.align_pos (Nat.add_left_cancel heq)

theorem out_chunk_iff (law : Lawful B Holds) (pages : Pages c Holds self h loose)
    (chunk : IsChunk c self idx i x) : Out c self x ↔ Words.bit (self.row idx) i = true := by
  constructor
  · rintro ⟨j, i', chunk', hbit⟩
    obtain ⟨rfl, rfl⟩ := pages.chunk_unique law chunk chunk'
    exact hbit
  · intro hbit
    exact ⟨idx, i, chunk, hbit⟩

/-- A page that keeps its run can be changed, as long as it counts its bits. -/
theorem edit (pages : Pages c Holds self h loose) (edit : Edit self self' idx)
    (hdata : (self'.page idx).data = (self.page idx).data)
    (counter : (self'.page idx).counter = (Words.ones (self'.row idx) c.count).card)
    (unmapped : (self.page idx).data = 0 → (self'.page idx).counter = 0) :
    Pages c Holds self' h loose := by
  have hsame : ∀ j, (self'.page j).data = (self.page j).data := by
    intro j
    by_cases hj : j = idx
    · rw [hj, hdata]
    · rw [edit.page j hj]
  have hruns : runs c self' = runs c self := by
    simp only [runs, edit.len, hsame]
  refine ⟨pages.tight, pages.shaped.edit edit, ?_, ?_, hruns ▸ pages.holds, ?_, ?_, ?_⟩
  · intro j hlt
    by_cases hj : j = idx
    · rw [hj, counter]
    · rw [edit.page j hj, edit.row j hj]
      exact pages.counter j (edit.len ▸ hlt)
  · intro j hlt hzero
    rw [hsame] at hzero
    by_cases hj : j = idx
    · rw [hj] at hzero ⊢
      exact unmapped hzero
    · rw [edit.page j hj]
      exact pages.unmapped j (edit.len ▸ hlt) hzero
  · intro j hlt hmapped p hp
    rw [hsame] at hmapped hp
    exact pages.entry j (edit.len ▸ hlt) hmapped p hp
  · intro j hlt hmapped
    rw [hsame] at hmapped ⊢
    exact pages.fits j (edit.len ▸ hlt) hmapped
  · rw [edit.len]
    exact pages.bound

/-- Some bits of a page are set. -/
theorem take (law : Lawful B Holds) (pages : Pages c Holds self h loose)
    (edit : Edit self self' idx) (is : List Nat) (hlt : idx < self.pages.len)
    (hmapped : (self.page idx).data ≠ 0)
    (hpage : self'.page idx =
      { self.page idx with counter := (self.page idx).counter + is.length })
    (nodup : is.Nodup) (hin : ∀ i ∈ is, i < c.count)
    (clear : ∀ i ∈ is, Words.bit (self.row idx) i = false)
    (hbit : ∀ i < c.count, Words.bit (self'.row idx) i =
      (Words.bit (self.row idx) i || decide (i ∈ is))) :
    Pages c Holds self' h loose ∧
      Gives c self self' (is.map fun i => (self.page idx).data + i * c.align) := by
  have hdata : (self'.page idx).data = (self.page idx).data := by rw [hpage]
  have hchunk : ∀ i ∈ is, IsChunk c self idx i ((self.page idx).data + i * c.align) :=
    fun i hi => ⟨hlt, hmapped, hin i hi, rfl⟩
  refine ⟨pages.edit edit hdata ?_ fun hzero => absurd hzero hmapped, ?_, ?_, ?_⟩
  · rw [Words.card_ones_add nodup hin clear hbit, hpage, pages.counter idx hlt]
  · apply nodup.map
    intro i i' heq
    exact Nat.eq_of_mul_eq_mul_right pages.tight.align_pos (Nat.add_left_cancel heq)
  · intro x hx hout
    obtain ⟨i, hi, rfl⟩ := List.mem_map.mp hx
    rw [pages.out_chunk_iff law (hchunk i hi), clear i hi] at hout
    exact absurd hout (by decide)
  · intro x
    rw [List.mem_map]
    constructor
    · rintro ⟨j, i, chunk, hset⟩
      rw [edit.isChunk_iff hdata] at chunk
      by_cases hj : j = idx
      · subst hj
        rw [hbit i chunk.lt, Bool.or_eq_true, decide_eq_true_eq] at hset
        exact hset.imp (fun h => ⟨j, i, chunk, h⟩) fun h => ⟨i, h, chunk.eq.symm⟩
      · rw [edit.row j hj] at hset
        exact .inl ⟨j, i, chunk, hset⟩
    · rintro (⟨j, i, chunk, hset⟩ | ⟨i, hi, rfl⟩)
      · refine ⟨j, i, (edit.isChunk_iff hdata).mpr chunk, ?_⟩
        by_cases hj : j = idx
        · subst hj
          rw [hbit i chunk.lt, hset, Bool.true_or]
        · rwa [edit.row j hj]
      · refine ⟨idx, i, (edit.isChunk_iff hdata).mpr (hchunk i hi), ?_⟩
        rw [hbit i (hin i hi), decide_eq_true hi, Bool.or_true]

/-- Some bits of a page are cleared. -/
theorem free (law : Lawful B Holds) (pages : Pages c Holds self h loose)
    (edit : Edit self self' idx) (is : List Nat) (hlt : idx < self.pages.len)
    (hmapped : (self.page idx).data ≠ 0)
    (hpage : self'.page idx =
      { self.page idx with counter := (self.page idx).counter - is.length })
    (nodup : is.Nodup) (hin : ∀ i ∈ is, i < c.count)
    (set : ∀ i ∈ is, Words.bit (self.row idx) i = true)
    (hbit : ∀ i < c.count, Words.bit (self'.row idx) i =
      (Words.bit (self.row idx) i && decide (i ∉ is))) :
    Pages c Holds self' h loose ∧ ∀ x, Out c self' x ↔
      Out c self x ∧ x ∉ is.map fun i => (self.page idx).data + i * c.align := by
  have hdata : (self'.page idx).data = (self.page idx).data := by rw [hpage]
  refine ⟨pages.edit edit hdata ?_ fun hzero => absurd hzero hmapped, ?_⟩
  · rw [Words.card_ones_sub nodup hin set hbit, hpage, pages.counter idx hlt]
  · intro x
    rw [List.mem_map]
    constructor
    · rintro ⟨j, i, chunk, hset⟩
      rw [edit.isChunk_iff hdata] at chunk
      by_cases hj : j = idx
      · subst hj
        rw [hbit i chunk.lt, Bool.and_eq_true, decide_eq_true_eq] at hset
        refine ⟨⟨j, i, chunk, hset.1⟩, ?_⟩
        rintro ⟨i', hi', rfl⟩
        obtain ⟨-, rfl⟩ := pages.chunk_unique law chunk ⟨hlt, hmapped, hin i' hi', rfl⟩
        exact hset.2 hi'
      · rw [edit.row j hj] at hset
        refine ⟨⟨j, i, chunk, hset⟩, ?_⟩
        rintro ⟨i', hi', rfl⟩
        exact hj (pages.chunk_unique law chunk ⟨hlt, hmapped, hin i' hi', rfl⟩).1
    · rintro ⟨⟨j, i, chunk, hset⟩, hnot⟩
      refine ⟨j, i, (edit.isChunk_iff hdata).mpr chunk, ?_⟩
      by_cases hj : j = idx
      · subst hj
        have hi : i ∉ is := fun hi => hnot ⟨i, hi, chunk.eq.symm⟩
        rw [hbit i chunk.lt, hset, decide_eq_true hi, Bool.and_true]
      · rwa [edit.row j hj]

end Pages

end UniAlloc.Separate
