import UniAlloc.Separate.Batch

/-!
# Deallocation

The radix tree leads from a chunk to its page, which takes the chunk back. A full page is
partially used afterwards, and a page without chunks out is released. A batch goes to the
pages in groups: a page takes back the chunks up to the first one of another page.
-/

namespace UniAlloc.Separate

open FreeList (Block PG_SIZE)
open Radix
open Slab (Config HeldPage Kind Lawful PAGE_SIZE PageBackend RadixFits SameOn align12k asUsize)

/-- The chunks have come back. Some pages may have lost their runs. -/
structure Returns (c : Config) (sc sc' : SCAllocator) (chunks : List Nat) : Prop where
  out : ∀ x, Out c sc' x ↔ Out c sc x ∧ x ∉ chunks
  data : ∀ j, (sc'.page j).data = (sc.page j).data ∨ (sc'.page j).data = 0

variable {σ : Type} {c : Config} {Holds : σ → Mem → RadixTree → Set Block → Prop}
  {B : PageBackend σ} {self self' self'' : SCAllocator} {h h' : Heap σ} {R R' : Kind → List Nat}
  {kind : Kind} {loose newPage : Option Nat} {idx i x : Nat} {chunks chunks' : List Nat}

theorem Returns.append (first : Returns c self self' chunks)
    (second : Returns c self' self'' chunks') : Returns c self self'' (chunks ++ chunks') := by
  refine ⟨?_, ?_⟩
  · intro x
    rw [second.out, first.out, List.mem_append, not_or, and_assoc]
  · intro j
    obtain hdata | hdata := second.data j
    · rw [hdata]
      exact first.data j
    · exact .inr hdata

/-- A page with chunks out is full or partially used. -/
theorem Filed.full_or_partially (filed : Filed c self R none) (hlt : idx < self.pages.len)
    (hdata : (self.page idx).data ≠ 0) (hpos : 0 < (self.page idx).counter) :
    c.count ≤ (self.page idx).counter ∧ idx ∈ R .full ∨
      ¬c.count ≤ (self.page idx).counter ∧ idx ∈ R .partially := by
  obtain ⟨kind, hidx⟩ := filed.all idx hlt nofun
  have belongs := filed.belongs hidx
  cases kind with
  | full => exact .inl ⟨belongs.2.ge, hidx⟩
  | partially => exact .inr ⟨Nat.not_le.mpr belongs.2, hidx⟩
  | empty => exact absurd belongs.2 hpos.ne'
  | uninit => exact absurd belongs hdata

/-- An empty page leaves its ring and is released. -/
theorem Filed.removeEmpty_spec (law : Lawful B Holds) (filed : Filed c self R none)
    (edit : Edit self self' idx) (pages : Pages c Holds self' h none) (hidx : idx ∈ R kind)
    (hdata : (self'.page idx).data ≠ 0) (hempty : (self'.page idx).counter = 0) :
    ∃ self₂ self'' h' R', self'.removeFrom kind idx = some self₂ ∧
      self₂.release B h idx = some (self'', h') ∧ Settled c Holds self'' h' R' ∧
      Returns c self' self'' [] := by
  have hlt : idx < self'.pages.len := edit.len ▸ filed.lt hidx
  obtain ⟨self₂, hremove, filed₂, same⟩ := filed.edit_remove edit hidx
  obtain ⟨self'', h', R', hcall, settled, hrun, hout⟩ :=
    filed₂.release law (pages.same same) (same.len ▸ hlt) (by rw [same.page]; exact hdata)
      (by rw [same.page]; exact hempty)
  refine ⟨self₂, self'', h', R', hremove, hcall, settled, ?_, ?_⟩
  · intro x
    rw [hout, same.out_iff]
    simp
  · intro j
    rw [← same.page]
    exact hrun j

/-- A page that has taken chunks back is filed anew. -/
theorem Filed.relocate_spec (law : Lawful B Holds) (filed : Filed c self R none)
    (edit : Edit self self' idx) (pages : Pages c Holds self' h none) (hlt : idx < self.pages.len)
    (hdata : (self'.page idx).data ≠ 0) (hsame : (self'.page idx).data = (self.page idx).data)
    (hpos : 0 < (self.page idx).counter) (hle : (self.page idx).counter ≤ c.count)
    (hless : (self'.page idx).counter < (self.page idx).counter) :
    ∃ self'' h' R', self'.relocate B h idx ((self.page idx).isFull c.count) = some (self'', h') ∧
      Settled c Holds self'' h' R' ∧ Returns c self' self'' [] := by
  have hlt' : idx < self'.pages.len := edit.len ▸ hlt
  have hnone : ∀ {sc}, SamePages self' sc → Returns c self' sc [] := by
    intro sc same
    refine ⟨fun x => ?_, fun j => ?_⟩
    · rw [same.out_iff]
      simp
    · rw [same.page]
      exact .inl rfl
  obtain ⟨hfull, hidx⟩ | ⟨hfull, hidx⟩ := filed.full_or_partially hlt (hsame ▸ hdata) hpos
  · by_cases hempty : (self'.page idx).counter = 0
    · obtain ⟨self₂, self'', h', R', hremove, hcall, hrest⟩ :=
        filed.removeEmpty_spec law edit pages hidx hdata hempty
      refine ⟨self'', h', R', ?_, hrest⟩
      simp only [SCAllocator.relocate, SCAllocator.get_page hlt', ObjectPage.isFull, hfull,
        decide_true, if_true, SCAllocator.removeFull, hremove, ObjectPage.isEmpty, hempty, hcall,
        bind, Option.bind]
    · obtain ⟨self₂, hremove, filed₂, same₂⟩ := filed.edit_remove edit hidx
      obtain ⟨self₃, hinsert, filed₃, same₃⟩ := filed₂.insert .partially
        (by rw [same₂.page]; exact ⟨hdata, by omega⟩)
      have same := same₂.trans same₃
      refine ⟨self₃, h, _, ?_, ⟨pages.same same, filed₃⟩, hnone same⟩
      simp only [SCAllocator.relocate, SCAllocator.get_page hlt', ObjectPage.isFull, hfull,
        decide_true, if_true, SCAllocator.removeFull, hremove, ObjectPage.isEmpty, hempty,
        decide_false, Bool.false_eq_true, if_false, SCAllocator.insertPartial, hinsert, bind,
        Option.bind]
  · by_cases hempty : (self'.page idx).counter = 0
    · obtain ⟨self₂, self'', h', R', hremove, hcall, hrest⟩ :=
        filed.removeEmpty_spec law edit pages hidx hdata hempty
      refine ⟨self'', h', R', ?_, hrest⟩
      simp only [SCAllocator.relocate, SCAllocator.get_page hlt', ObjectPage.isFull, hfull,
        decide_false, Bool.false_eq_true, if_false, SCAllocator.removePartial, hremove,
        ObjectPage.isEmpty, hempty, decide_true, if_true, hcall, bind, Option.bind]
    · refine ⟨self', h, R, ?_, ⟨pages, filed.edit_belongs edit hidx ⟨hdata, by omega⟩⟩,
        hnone ⟨rfl, rfl, rfl, rfl, rfl⟩⟩
      simp only [SCAllocator.relocate, SCAllocator.get_page hlt', ObjectPage.isFull, hfull,
        decide_false, Bool.false_eq_true, if_false, ObjectPage.isEmpty, hempty, bind, Option.bind]

namespace Pages

/-- The radix tree leads from a chunk to its page. -/
theorem getMut_chunk (law : Lawful B Holds) (pages : Pages c Holds self h none)
    (chunk : IsChunk c self idx i x) :
    TreeNode.getMut h.tree (pageKey (align12k x)) = some ((idx : Int) + 1) := by
  have hpage := pages.chunk_mem_page law chunk
  have hbound := (pages.placed law chunk.page chunk.mapped).bound
  have hentry := pages.entry idx chunk.page chunk.mapped _ hpage
  rw [if_neg nofun] at hentry
  rw [FreeList.Block.mem_pages] at hpage
  have hx : x < 2 ^ 48 := by
    simp only [PG_SIZE] at hpage hbound
    omega
  rw [Slab.getMut_align12k h.tree hx]
  exact congrArg some hentry

theorem asUsize_page (pages : Pages c Holds self h loose) (hlt : idx < self.pages.len) :
    asUsize ((idx : Int) + 1 - 1) = idx := by
  have hbound := pages.bound
  rw [asUsize, add_sub_cancel_right]
  norm_num
  omega

/-- A chunk that lies in the run of a page belongs to the page. -/
theorem page_of_inPage (law : Lawful B Holds) (pages : Pages c Holds self h loose)
    (hlt : idx < self.pages.len) (hdata : (self.page idx).data ≠ 0)
    (hin : ObjectPage.InPage (self.page idx).data c.pgNum x) {j : Nat}
    (chunk : IsChunk c self j i x) : j = idx := by
  rw [ObjectPage.inPage_iff, Nat.mul_comm] at hin
  have hpage := Config.mem_run_pages (pages.placed law hlt hdata).aligned hin.1 hin.2
  exact pages.eq_of_page chunk.page chunk.mapped hlt hdata (pages.chunk_mem_page law chunk) hpage

/-- A page does not have more chunks out than its counter tells. -/
theorem length_le_counter (pages : Pages c Holds self h loose) (hlt : idx < self.pages.len)
    {is : List Nat} (nodup : is.Nodup) (hin : ∀ i ∈ is, i < c.count)
    (set : ∀ i ∈ is, Words.bit (self.row idx) i = true) :
    is.length ≤ (self.page idx).counter := by
  have hsub : is.toFinset ⊆ Words.ones (self.row idx) c.count := by
    intro i hi
    have hi := List.mem_toFinset.mp hi
    exact Words.mem_ones.mpr ⟨hin i hi, set i hi⟩
  have hcard := Finset.card_le_card hsub
  rwa [List.toFinset_card_of_nodup nodup, ← pages.counter idx hlt] at hcard

end Pages

namespace Settled

/-- A chunk that is out comes back. -/
theorem deallocate_spec (law : Lawful B Holds) (settled : Settled c Holds self h R)
    (hout : Out c self x) :
    ∃ self' h' R', self.deallocate B h x = some (self', h') ∧ Settled c Holds self' h' R' ∧
      Returns c self self' [x] := by
  obtain ⟨idx, i, chunk, hset⟩ := hout
  have pages := settled.pages
  have hlt := chunk.page
  have hlen := pages.shaped.length_row hlt
  have hle := pages.length_le_counter hlt (List.nodup_singleton i)
    (fun j hj => List.mem_singleton.mp hj ▸ chunk.lt) (fun j hj => List.mem_singleton.mp hj ▸ hset)
  obtain ⟨hcall, frees⟩ :=
    ObjectPage.deallocate_spec pages.tight.toOk hlen chunk.lt hset hle
  rw [← chunk.eq] at hcall
  obtain ⟨edit, hpage, hrow⟩ := Edit.store pages.shaped hlt (frees.length.trans hlen)
    { self.page idx with counter := (self.page idx).counter - 1 }
  obtain ⟨pages₁, hout₁⟩ := pages.free law edit [i] hlt chunk.mapped hpage
    (List.nodup_singleton i) (fun j hj => List.mem_singleton.mp hj ▸ chunk.lt) frees.set
    fun j _ => by rw [hrow, frees.bit]
  obtain ⟨self', h', R', hrelocate, settled', returns⟩ := settled.filed.relocate_spec law edit
    pages₁ hlt (by rw [hpage]; exact chunk.mapped) (by rw [hpage]) hle (pages.counter_le hlt)
    (by rw [hpage]; exact Nat.sub_one_lt_of_lt hle)
  refine ⟨self', h', R', ?_, settled', ?_⟩
  · have hneg : ¬((idx : Int) + 1 - 1 < 0) := by omega
    simp only [SCAllocator.deallocate, pages.getMut_chunk law chunk, if_neg hneg,
      pages.asUsize_page hlt, SCAllocator.get_page hlt, pages.shaped.slice hlt,
      pages.shaped.pgAlign, pages.shaped.pgCount, hcall, hrelocate, bind, Option.bind]
  · have first : Returns c self (self.store idx
        { self.page idx with counter := (self.page idx).counter - 1 }
        (Words.clearBit (self.row idx) i)) [x] := by
      refine ⟨fun y => ?_, fun j => .inl ?_⟩
      · rw [hout₁, List.map_singleton, ← chunk.eq]
      · by_cases hj : j = idx
        · rw [hj, hpage]
        · rw [edit.page j hj]
    exact first.append returns

/-- Chunks of one page come back together. -/
theorem deallocateHead_spec (law : Lawful B Holds) (settled : Settled c Holds self h R)
    {rest : List Nat} (hlt : idx < self.pages.len) (hdata : (self.page idx).data ≠ 0)
    (nodup : (x :: chunks).Nodup) (hout : ∀ y ∈ x :: chunks, Out c self y)
    (hin : ∀ y ∈ x :: chunks, ObjectPage.InPage (self.page idx).data c.pgNum y)
    (hstop : ∀ y ∈ rest.head?, ¬ObjectPage.InPage (self.page idx).data c.pgNum y) :
    ∃ self' h' R', self.deallocateHead B h x (x :: chunks ++ rest) =
        some (self', h', (x :: chunks).length) ∧
      Settled c Holds self' h' R' ∧ Returns c self self' (x :: chunks) := by
  have pages := settled.pages
  have hlen := pages.shaped.length_row hlt
  -- the chunks by their numbers
  have hnum : ∀ y ∈ x :: chunks, IsChunk c self idx ((y - (self.page idx).data) / c.align) y ∧
      Words.bit (self.row idx) ((y - (self.page idx).data) / c.align) = true := by
    intro y hy
    obtain ⟨j, i, chunk, hset⟩ := hout y hy
    obtain rfl := pages.page_of_inPage law hlt hdata (hin y hy) chunk
    have hi : (y - (self.page j).data) / c.align = i := by
      rw [chunk.eq]
      exact ObjectPage.chunk_num pages.tight.toOk _ i
    rw [hi]
    exact ⟨chunk, hset⟩
  obtain ⟨is, his⟩ : ∃ is, (x :: chunks).map (fun y => (y - (self.page idx).data) / c.align) = is :=
    ⟨_, rfl⟩
  have hmap : is.map (fun i => (self.page idx).data + i * c.align) = x :: chunks := by
    rw [← his, List.map_map]
    conv_rhs => rw [← List.map_id (x :: chunks)]
    apply List.map_congr_left
    intro y hy
    exact (hnum y hy).1.eq.symm
  have hlength : is.length = (x :: chunks).length := by rw [← hmap, List.length_map]
  have hnodup : is.Nodup := List.Nodup.of_map _ (hmap ▸ nodup)
  have hset : ∀ i ∈ is, i < c.count ∧ Words.bit (self.row idx) i = true := by
    intro i hi
    rw [← his] at hi
    obtain ⟨y, hy, rfl⟩ := List.mem_map.mp hi
    exact ⟨(hnum y hy).1.lt, (hnum y hy).2⟩
  have hle := pages.length_le_counter hlt hnodup (fun i hi => (hset i hi).1)
    fun i hi => (hset i hi).2
  obtain ⟨bitfield, hcall, frees⟩ := ObjectPage.deallocateBatch_spec pages.tight.toOk
    (self.page idx) hnodup (fun i hi => (hset i hi).1) hstop hlen (fun i hi => (hset i hi).2) hle
  rw [hmap] at hcall
  have hpos : 0 < is.length := hlength ▸ Nat.succ_pos _
  obtain ⟨edit, hpage, hrow⟩ := Edit.store pages.shaped hlt (frees.length.trans hlen)
    { self.page idx with counter := (self.page idx).counter - is.length }
  obtain ⟨pages₁, hout₁⟩ := pages.free law edit is hlt hdata hpage hnodup (fun i hi => (hset i hi).1)
    frees.set fun j _ => by rw [hrow, frees.bit]
  obtain ⟨self', h', R', hrelocate, settled', returns⟩ := settled.filed.relocate_spec law edit
    pages₁ hlt (by rw [hpage]; exact hdata) (by rw [hpage]) (hpos.trans_le hle)
    (pages.counter_le hlt) (by rw [hpage]; exact Nat.sub_lt (hpos.trans_le hle) hpos)
  refine ⟨self', h', R', ?_, settled', ?_⟩
  · have hne : is.length ≠ 0 := hpos.ne'
    rw [← hlength]
    simp only [SCAllocator.deallocateHead, pages.getMut_chunk law (hnum x List.mem_cons_self).1,
      pages.asUsize_page hlt, SCAllocator.get_page hlt, pages.shaped.slice hlt,
      pages.shaped.pgAlign, pages.shaped.pgCount, pages.shaped.pgNum, hcall, if_neg hne, hrelocate,
      bind, Option.bind]
  · have first : Returns c self (self.store idx
        { self.page idx with counter := (self.page idx).counter - is.length } bitfield)
        (x :: chunks) := by
      refine ⟨fun y => ?_, fun j => .inl ?_⟩
      · rw [hout₁, hmap]
      · by_cases hj : j = idx
        · rw [hj, hpage]
        · rw [edit.page j hj]
    have hall := first.append returns
    rwa [List.append_nil] at hall

end Settled

/-- The two addresses lie in the run of one page. -/
def SameRun (c : Config) (sc : SCAllocator) (x y : Nat) : Prop :=
  ∃ idx, (sc.page idx).data ≠ 0 ∧ ObjectPage.InPage (sc.page idx).data c.pgNum x ∧
    ObjectPage.InPage (sc.page idx).data c.pgNum y

/-- The entry behind the first `count` ones does not lie in the run of the page of the last
of them. -/
def EndsApart (c : Config) (sc : SCAllocator) (resArray : List Nat) (count : Nat) : Prop :=
  ∀ x ∈ resArray[count - 1]?, ∀ y ∈ resArray[count]?, ¬SameRun c sc x y

/-- Pages only lose their runs. -/
theorem Returns.sameRun (returns : Returns c self self' chunks) {x y : Nat}
    (run : SameRun c self' x y) : SameRun c self x y := by
  obtain ⟨idx, hdata, hx, hy⟩ := run
  obtain heq | hzero := returns.data idx
  · rw [heq] at hdata hx hy
    exact ⟨idx, hdata, hx, hy⟩
  · exact absurd hzero hdata

/-- The group that a round takes back: the entries up to the first one outside the page. -/
structure Group (c : Config) (sc : SCAllocator) (resArray : List Nat) (start idx x : Nat)
    (group rest : List Nat) : Prop where
  lt : idx < sc.pages.len
  mapped : (sc.page idx).data ≠ 0
  split : resArray.drop start = x :: group ++ rest
  inside : ∀ y ∈ x :: group, ObjectPage.InPage (sc.page idx).data c.pgNum y
  stop : ∀ y ∈ rest.head?, ¬ObjectPage.InPage (sc.page idx).data c.pgNum y

namespace Group

variable {resArray group rest : List Nat} {start count : Nat}

/-- The entries of the group, by their positions. -/
theorem inPage (grp : Group c self resArray start idx x group rest) {j y : Nat}
    (hstart : start ≤ j) (hend : j < start + (x :: group).length) (hy : resArray[j]? = some y) :
    ObjectPage.InPage (self.page idx).data c.pgNum y := by
  obtain ⟨k, rfl⟩ := Nat.exists_eq_add_of_le hstart
  rw [← List.getElem?_drop, grp.split, List.getElem?_append_left (by omega)] at hy
  exact grp.inside y (List.mem_of_getElem? hy)

/-- A group that goes on behind the batch joins its last entry and the next one. -/
theorem sameRun (grp : Group c self resArray start idx x group rest) (hlt : start < count)
    (hlong : count < start + (x :: group).length) :
    ∃ y z, resArray[count - 1]? = some y ∧ resArray[count]? = some z ∧ SameRun c self y z := by
  have hlen : start + (x :: group).length ≤ resArray.length := by
    have hsplit := congrArg List.length grp.split
    rw [List.length_drop, List.length_append, List.length_cons] at hsplit
    rw [List.length_cons] at hlong ⊢
    omega
  have hlast : count - 1 < resArray.length := by omega
  have hnext : count < resArray.length := by omega
  have hy := List.getElem?_eq_getElem hlast
  have hz := List.getElem?_eq_getElem hnext
  exact ⟨_, _, hy, hz, idx, grp.mapped, grp.inPage (by omega) (by omega) hy,
    grp.inPage (by omega) hlong hz⟩

end Group

namespace Settled

theorem exists_group (settled : Settled c Holds self h R) {resArray : List Nat} {start : Nat}
    (hx : resArray[start]? = some x) (hout : Out c self x) :
    ∃ idx group rest, Group c self resArray start idx x group rest := by
  obtain ⟨idx, i, chunk, -⟩ := hout
  obtain ⟨hstart, hget⟩ := List.getElem?_eq_some_iff.mp hx
  have hin : ObjectPage.InPage (self.page idx).data c.pgNum x :=
    chunk.eq ▸ ObjectPage.inPage_chunk settled.pages.tight.toOk _ chunk.lt
  refine ⟨idx,
    (resArray.drop (start + 1)).takeWhile (ObjectPage.InPage (self.page idx).data c.pgNum ·),
    (resArray.drop (start + 1)).dropWhile (ObjectPage.InPage (self.page idx).data c.pgNum ·),
    chunk.page, chunk.mapped, ?_, ?_, ?_⟩
  · rw [List.cons_append, List.takeWhile_append_dropWhile, List.drop_eq_getElem_cons hstart, hget]
  · intro y hy
    obtain rfl | hy := List.mem_cons.mp hy
    · exact hin
    · simpa using List.all_eq_true.mp List.all_takeWhile y hy
  · intro y hy hin'
    have hhead := List.head?_dropWhile_not (ObjectPage.InPage (self.page idx).data c.pgNum ·)
      (resArray.drop (start + 1))
    rw [Option.mem_def.mp hy] at hhead
    simp [hin'] at hhead

/-- One round of a batch, for a group that ends within it. -/
theorem round_spec (law : Lawful B Holds) (settled : Settled c Holds self h R)
    {resArray group rest : List Nat} {count deallocated : Nat}
    (grp : Group c self resArray deallocated idx x group rest)
    (hle : deallocated + (x :: group).length ≤ count)
    (nodup : ((resArray.take count).drop deallocated).Nodup)
    (hout : ∀ y ∈ (resArray.take count).drop deallocated, Out c self y) :
    (resArray.take count).drop deallocated =
        x :: group ++ (resArray.take count).drop (deallocated + (x :: group).length) ∧
      ∃ self' h' R', self.deallocateHead B h x (resArray.drop deallocated) =
          some (self', h', (x :: group).length) ∧
        Settled c Holds self' h' R' ∧ Returns c self self' (x :: group) ∧
        ((resArray.take count).drop (deallocated + (x :: group).length)).Nodup ∧
        ∀ y ∈ (resArray.take count).drop (deallocated + (x :: group).length), Out c self' y := by
  have hsplit : (resArray.take count).drop deallocated =
      x :: group ++ (resArray.take count).drop (deallocated + (x :: group).length) := by
    rw [← List.drop_drop, List.drop_take, grp.split,
      List.take_append, List.take_of_length_le (by omega), List.drop_left]
  rw [hsplit] at nodup hout
  obtain ⟨hgroup, hrest, hdisj⟩ := List.nodup_append.mp nodup
  obtain ⟨self', h', R', hcall, settled', returns⟩ := settled.deallocateHead_spec law grp.lt
    grp.mapped hgroup (fun y hy => hout y (List.mem_append_left _ hy)) grp.inside grp.stop
  refine ⟨hsplit, self', h', R', grp.split ▸ hcall, settled', returns, hrest, ?_⟩
  intro y hy
  exact (returns.out y).mpr ⟨hout y (List.mem_append_right _ hy), fun hy' => hdisj y hy' y hy rfl⟩

/-- The rounds take back exactly the first `count` entries, if the last group ends there. -/
theorem deallocateWhile_spec (law : Lawful B Holds) (settled : Settled c Holds self h R)
    {resArray : List Nat} {count : Nat} (fuel deallocated : Nat) (hlen : count ≤ resArray.length)
    (hle : deallocated ≤ count) (hfuel : count - deallocated < fuel)
    (nodup : ((resArray.take count).drop deallocated).Nodup)
    (hout : ∀ y ∈ (resArray.take count).drop deallocated, Out c self y)
    (hend : EndsApart c self resArray count) :
    ∃ self' h' R',
      SCAllocator.deallocateWhile B resArray count fuel self h deallocated = some (self', h') ∧
      Settled c Holds self' h' R' ∧
      Returns c self self' ((resArray.take count).drop deallocated) := by
  induction fuel generalizing self h R deallocated with
  | zero => exact absurd hfuel (Nat.not_lt_zero _)
  | succ fuel ih =>
      by_cases hmore : deallocated < count
      · have hlt : deallocated < resArray.length := hmore.trans_le hlen
        have hx := List.getElem?_eq_getElem hlt
        have hmem : resArray[deallocated] ∈ (resArray.take count).drop deallocated := by
          rw [List.drop_take, List.drop_eq_getElem_cons hlt,
            ← Nat.succ_pred_eq_of_pos (Nat.sub_pos_of_lt hmore), List.take_succ_cons]
          exact List.mem_cons_self
        obtain ⟨idx, group, rest, grp⟩ := settled.exists_group hx (hout _ hmem)
        have hfits : deallocated + (resArray[deallocated] :: group).length ≤ count := by
          by_contra hlong
          obtain ⟨y, z, hy, hz, run⟩ := grp.sameRun hmore (Nat.lt_of_not_le hlong)
          exact hend y hy z hz run
        obtain ⟨hsplit, self₁, h₁, R₁, hcall, settled₁, returns, nodup₁, hout₁⟩ :=
          settled.round_spec law grp hfits nodup hout
        obtain ⟨self', h', R', hrest, settled', returns'⟩ := ih settled₁ _ hfits
          (by rw [List.length_cons]; omega) nodup₁ hout₁
          fun y hy z hz run => hend y hy z hz (returns.sameRun run)
        refine ⟨self', h', R', ?_, settled', ?_⟩
        · simp only [SCAllocator.deallocateWhile, if_pos hmore, hx, hcall, hrest, bind, Option.bind]
        · rw [hsplit]
          exact returns.append returns'
      · have hnil : (resArray.take count).drop deallocated = [] :=
          List.drop_eq_nil_of_le ((List.length_take_le _ _).trans (Nat.le_of_not_lt hmore))
        refine ⟨self, h, R, ?_, settled, ?_⟩
        · rw [SCAllocator.deallocateWhile, if_neg hmore]
        · rw [hnil]
          exact ⟨fun x => by simp, fun _ => .inl rfl⟩

/-- A batch of chunks that are out comes back. -/
theorem deallocateBatch_spec (law : Lawful B Holds) (settled : Settled c Holds self h R)
    (resArray : List Nat) (countP : Nat)
    (nodup : (resArray.take (min countP resArray.length)).Nodup)
    (hout : ∀ y ∈ resArray.take (min countP resArray.length), Out c self y)
    (hend : min countP resArray.length = 0 ∨
      EndsApart c self resArray (min countP resArray.length)) :
    ∃ self' h' R', self.deallocateBatch B h resArray countP = some (self', h') ∧
      Settled c Holds self' h' R' ∧
      Returns c self self' (resArray.take (min countP resArray.length)) := by
  rw [SCAllocator.deallocateBatch]
  split
  · next hzero =>
      rw [hzero, List.take_zero]
      exact ⟨self, h, R, rfl, settled, fun x => by simp, fun _ => .inl rfl⟩
  · next hpos =>
      have hspec := settled.deallocateWhile_spec law
        (min countP resArray.length + 1) 0 (Nat.min_le_right _ _) (Nat.zero_le _)
        (Nat.lt_succ_self _) nodup hout (hend.resolve_left hpos)
      rwa [List.drop_zero] at hspec

end Settled

end UniAlloc.Separate
