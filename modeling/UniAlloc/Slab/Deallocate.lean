import UniAlloc.Slab.InHand
import UniAlloc.Linked.Segment

/-!
# Taking chains back

`deallocate_batch` cuts the chain into pieces that lie in one page each. A piece
goes in front of the free list of its page, and the page moves to the ring its
new counter asks for; an empty page is given back to the backend when there are
too many of them.
-/

namespace UniAlloc.Slab

open FreeList Radix

variable {κ σ : Type}

/-- The loop stops at the last node of the piece that lies in the page. -/
theorem ObjectPage.scan_spec {mem : Mem} (base limit : Nat) {cur : Nat} {rest : List Nat}
    (chain : Segment mem (mem cur) rest 0) (hbase : 0 < base) :
    ∃ pre post init last, rest = pre ++ post ∧ cur :: pre = init ++ [last] ∧
      (∀ x ∈ pre, base ≤ x ∧ x < limit) ∧ Segment mem (mem last) post 0 ∧
      ¬(base ≤ mem last ∧ mem last < limit) ∧
      Segment mem cur (cur :: pre) (mem last) ∧
      ∀ fuel c, pre.length < fuel →
        scan mem base limit fuel cur c = some (last, c + pre.length) := by
  induction rest generalizing cur with
  | nil =>
      have hstop : ¬(base ≤ mem cur ∧ mem cur < limit) := by
        rw [Segment.nil_iff] at chain
        omega
      refine ⟨[], [], [], cur, rfl, rfl, by simp, chain, hstop, ⟨rfl, rfl⟩, fun fuel c hfuel => ?_⟩
      obtain ⟨fuel, rfl⟩ : ∃ n, fuel = n + 1 := ⟨fuel - 1, by simp at hfuel; omega⟩
      exact if_neg hstop
  | cons x rest ih =>
      obtain ⟨hx, hrest⟩ := chain
      by_cases hin : base ≤ mem cur ∧ mem cur < limit
      · obtain ⟨pre, post, init, last, rfl, hlast, hpre, hpost, hstop, hseg, hscan⟩ := ih hrest
        refine ⟨x :: pre, post, cur :: init, last, rfl, by rw [hlast]; rfl, ?_, hpost, hstop,
          ⟨rfl, hx ▸ hseg⟩, fun fuel c hfuel => ?_⟩
        · rintro y (_ | ⟨_, hy⟩)
          · exact hx ▸ hin
          · exact hpre y hy
        · obtain ⟨fuel, rfl⟩ : ∃ n, fuel = n + 1 := ⟨fuel - 1, by simp at hfuel; omega⟩
          rw [scan, if_pos hin, hx, hscan fuel (c + 1) (by simpa using hfuel)]
          simp only [List.length_cons]
          congr 2
          omega
      · refine ⟨[], x :: rest, [], cur, rfl, rfl, by simp, ⟨hx, hrest⟩, hin, ⟨rfl, rfl⟩,
          fun fuel c hfuel => ?_⟩
        obtain ⟨fuel, rfl⟩ : ∃ n, fuel = n + 1 := ⟨fuel - 1, by simp at hfuel; omega⟩
        exact if_neg hin

/-- The run of pages of a descriptor. -/
def ObjectPage.InRun (page : ObjectPage) (pgNum x : Nat) : Prop :=
  page.data ≤ x ∧ x < page.data + pgNum * PAGE_SIZE

/-- What `deallocate` does with a chain: the nodes of `taken`, up to the first that lies outside
the run, go in front of the free list. -/
structure ObjectPage.Splices (c : Config) (page : ObjectPage) (mem : Mem) (free : List Nat)
    (head : Nat) (taken post : List Nat) : Prop where
  ne_nil : taken ≠ []
  inRun : ∀ x ∈ taken, page.InRun c.pgNum x
  stops : ∀ x ∈ post.head?, ¬page.InRun c.pgNum x
  le : taken.length ≤ page.counter
  result : ∃ mem', page.deallocate mem head c.pgNum = some
    ({ page with ptr := head, counter := page.counter - taken.length }, mem', post.headD 0) ∧
      (∃ x ∈ taken, mem' = Function.update mem x page.ptr) ∧
      Segment mem' head (taken ++ free) 0 ∧ Segment mem' (post.headD 0) post 0
  length : (taken ++ free).length = c.count - (page.counter - taken.length)
  rest : Segment mem (post.headD 0) post 0

/-- A chain of chunks that are out, the first of them in the page. -/
theorem ObjectPage.deallocate_spec {c : Config} {page : ObjectPage} {mem : Mem}
    {free l : List Nat} {head : Nat} (hdata : page.data ≠ 0) (busy : Busy c mem page free)
    (chain : Segment mem head l 0) (nodup : l.Nodup) (hhead : page.InRun c.pgNum head)
    (out : ∀ x ∈ l, page.InRun c.pgNum x → x ∈ c.chunks page.data ∧ x ∉ free) :
    ∃ taken post, l = taken ++ post ∧ page.Splices c mem free head taken post := by
  have hhead0 : head ≠ 0 := fun e => hdata (Nat.le_zero.mp (e ▸ hhead.1))
  obtain ⟨rest, rfl, hrest⟩ := chain.exists_cons hhead0
  obtain ⟨pre, post, init, last, rfl, hinit, hpre, hpost, hstop, hseg, hscan⟩ :=
    scan_spec page.data (page.data + c.pgNum * PAGE_SIZE) hrest (Nat.pos_of_ne_zero hdata)
  have hin : ∀ x ∈ head :: pre, page.InRun c.pgNum x := List.forall_mem_cons.mpr ⟨hhead, hpre⟩
  have hsub : ∀ x ∈ head :: pre, x ∈ head :: (pre ++ post) := fun x hx =>
    List.mem_append_left post hx
  have hnodup : (head :: pre).Nodup := (List.nodup_append.mp nodup).1
  -- the nodes that are taken and those that are free are different chunks of the page
  have hdisj : ∀ x ∈ head :: pre, x ∉ free := fun x hx => (out x (hsub x hx) (hin x hx)).2
  have hle : (head :: pre).length ≤ page.counter := by
    have nodupFree : (head :: pre ++ free).Nodup :=
      List.nodup_append.mpr ⟨hnodup, busy.nodup, fun x hx y hy e => hdisj x hx (e ▸ hy)⟩
    have sub : ∀ x ∈ head :: pre ++ free, x ∈ c.chunks page.data := fun x hx =>
      (List.mem_append.mp hx).elim (fun hx => (out x (hsub x hx) (hin x hx)).1) (busy.sub x)
    have hlength := (nodupFree.subperm sub).length_le
    rw [List.length_append, Config.length_chunks] at hlength
    have := busy.sum
    omega
  have hlast : last ∈ head :: pre := by
    rw [hinit]
    exact List.mem_append_right init (List.mem_singleton_self last)
  have hheadD : mem last = post.headD 0 := by
    cases post with
    | nil => exact hpost
    | cons y post => exact hpost.1
  refine ⟨head :: pre, post, rfl, List.cons_ne_nil _ _, hin, ?_, hle,
    ⟨Function.update mem last page.ptr, ?_, ⟨last, hlast, rfl⟩, ?_, ?_⟩, ?_, hheadD ▸ hpost⟩
  · cases post with
    | nil => exact fun x hx => absurd hx (Option.not_mem_none x)
    | cons y post =>
        rintro x ⟨⟩
        exact hpost.1 ▸ hstop
  · have hrange : page.data ≤ head ∧ head < page.data + c.pgNum * PAGE_SIZE ∧ 0 < page.counter :=
      ⟨hhead.1, hhead.2, busy.pos⟩
    rw [deallocate, ← hheadD]
    simp only [hrange, and_self, if_true]
    rw [hscan _ 1 (by simpa using hle)]
    simp only [Option.bind_eq_bind, Option.bind_some]
    rw [if_pos (by rw [List.length_cons] at hle; omega), List.length_cons, Nat.add_comm 1]
  · rw [Segment.append_iff]
    refine ⟨page.ptr, ?_, busy.chain.congr fun y hy => Function.update_of_ne ?_ _ _⟩
    · rw [hinit] at hseg hnodup ⊢
      exact hseg.redirect hnodup _
    · rintro rfl
      exact hdisj y hlast hy
  · refine Segment.congr (hheadD ▸ hpost) fun y hy => Function.update_of_ne ?_ _ _
    rintro rfl
    exact (List.nodup_append.mp nodup).2.2 y hlast y hy rfl
  · have := busy.sum
    rw [List.length_append]
    omega

section Piece

variable {cfg : κ → Config} {Holds : σ → Mem → RadixTree → Set Block → Prop}
  {B : PageBackend σ} {slabs : κ → SCAllocator} {h : Heap σ} {g : Ghost κ} {k : κ} {d head : Nat}
  {l : List Nat}

/-- The first piece of a chain: `taken` are chunks of page `d`, and `deallocate` links
them in front of its free list. -/
structure Piece (cfg : κ → Config) (h : Heap σ) (g : Ghost κ) (k : κ) (d head : Nat)
    (l taken post : List Nat) (mem' : Mem) (head' : Nat) : Prop where
  split : l = taken ++ post
  ne_nil : taken ≠ []
  inUse : g.InUse k d
  isOut : ∀ x ∈ taken, IsOut cfg h.desc g k d x
  le : taken.length ≤ (h.desc d).counter
  result : (h.desc d).deallocate h.mem head (cfg k).pgNum =
    some ({ h.desc d with ptr := head, counter := (h.desc d).counter - taken.length }, mem', head')
  rest : Segment h.mem head' post 0
  free : Segment mem' head (taken ++ g.free d) 0
  last : ∃ x ∈ taken, mem' = Function.update h.mem x (h.desc d).ptr

theorem InUse.busy (inv : Inv cfg Holds slabs h g) (hd : g.InUse k d) :
    (h.desc d).data ≠ 0 ∧ Busy (cfg k) h.mem (h.desc d) (g.free d) := by
  obtain hd | hd := hd
  · obtain ⟨hdata, busy, -⟩ := inv.page hd
    exact ⟨hdata, busy⟩
  · obtain ⟨hdata, busy, -⟩ := inv.page hd
    exact ⟨hdata, busy⟩

/-- A page in use has a chunk that is out. -/
theorem InUse.exists_isOut (inv : Inv cfg Holds slabs h g) (hd : g.InUse k d) :
    ∃ x, IsOut cfg h.desc g k d x := by
  obtain ⟨-, busy⟩ := InUse.busy inv hd
  by_contra hnone
  have hfree : (cfg k).chunks (h.desc d).data ⊆ g.free d := fun x hx =>
    by_contra fun hx' => hnone ⟨x, hd, hx, hx'⟩
  have hle := ((inv.ok hd.mapped).nodup_chunks.subperm hfree).length_le
  rw [Config.length_chunks] at hle
  have := busy.pos
  have := busy.sum
  omega

/-- Chunks that are out and chunks that are free make up at most a page. -/
theorem nodup_taken_free (inv : Inv cfg Holds slabs h g) {taken : List Nat}
    (hd : g.InUse k d) (nodup : taken.Nodup) (isOut : ∀ x ∈ taken, IsOut cfg h.desc g k d x) :
    (taken ++ g.free d).Nodup ∧ ∀ x ∈ taken ++ g.free d, x ∈ (cfg k).chunks (h.desc d).data := by
  obtain ⟨-, busy⟩ := InUse.busy inv hd
  refine ⟨List.nodup_append.mpr ⟨nodup, busy.nodup, ?_⟩, fun x hx => ?_⟩
  · rintro x hx y hy rfl
    exact (isOut x hx).notFree hy
  · obtain hx | hx := List.mem_append.mp hx
    · exact (isOut x hx).chunk
    · exact busy.sub x hx

/-- The radix tree finds the page of a chunk that is out. -/
theorem entry_of_out (law : Lawful B Holds) (inv : Inv cfg Holds slabs h g) {x : Nat}
    (hx : IsOut cfg h.desc g k d x) : h.tree.entry (x / PAGE_SIZE) = d :=
  inv.entry hx.inUse.mapped _ (inv.chunk_mem_page law hx.inUse.mapped hx.chunk)

/-- A word inside the bounds of page `d` that is a chunk out of allocator `k` is a chunk
of page `d`. -/
theorem isOut_of_bounds (law : Lawful B Holds) (inv : Inv cfg Holds slabs h g) {x : Nat}
    (hd : g.InUse k d) (hx : x ∈ g.out k) (hbase : (h.desc d).data ≤ x)
    (hlimit : x < (h.desc d).data + (cfg k).pgNum * PAGE_SIZE) : IsOut cfg h.desc g k d x := by
  obtain ⟨d', hd'⟩ := inv.out.mp hx
  have hp := Config.mem_run_pages (c := cfg k) (inv.placed law hd.mapped).aligned hbase
    (by rwa [Nat.mul_comm] at hlimit)
  rwa [inv.eq_of_page hd.mapped hd'.inUse.mapped hp
    (inv.chunk_mem_page law hd'.inUse.mapped hd'.chunk)]

theorem exists_piece (law : Lawful B Holds) (inv : Inv cfg Holds slabs h g)
    (chain : Segment h.mem head l 0) (hne : l ≠ []) (nodup : l.Nodup)
    (hout : ∀ x ∈ l, x ∈ g.out k) :
    ∃ d taken post mem' head', Piece cfg h g k d head l taken post mem' head' := by
  obtain ⟨x, rest, rfl⟩ := List.exists_cons_of_ne_nil hne
  obtain rfl : head = x := chain.1
  obtain ⟨d, hd⟩ := inv.out.mp (hout head List.mem_cons_self)
  obtain ⟨hdata, busy⟩ := InUse.busy inv hd.inUse
  have ok := inv.ok hd.inUse.mapped
  have hrun : ∀ x ∈ head :: rest, (h.desc d).InRun (cfg k).pgNum x → IsOut cfg h.desc g k d x :=
    fun x hx hin => isOut_of_bounds law inv hd.inUse (hout x hx) hin.1 hin.2
  have hhead : (h.desc d).InRun (cfg k).pgNum head := by
    have hbounds := ok.chunk_le hd.chunk
    have := ok.align_pos
    refine ⟨hbounds.1, ?_⟩
    rw [Nat.mul_comm]
    omega
  obtain ⟨taken, post, hsplit, splices⟩ := ObjectPage.deallocate_spec hdata busy chain nodup hhead
    fun x hx hin => ⟨(hrun x hx hin).chunk, (hrun x hx hin).notFree⟩
  obtain ⟨mem', hresult, hlast, hfree, -⟩ := splices.result
  refine ⟨d, taken, post, mem', post.headD 0, hsplit, splices.ne_nil, hd.inUse, fun x hx => ?_,
    splices.le, hresult, splices.rest, hfree, hlast⟩
  exact hrun x (hsplit ▸ List.mem_append_left post hx) (splices.inRun x hx)

namespace Piece

variable {taken post : List Nat} {mem' : Mem} {head' : Nat} {b : Kind} {h' : Heap σ}
  {desc' : Descs} {g' : Ghost κ}

/-- When the counter drops to zero every chunk that was out has come back. -/
theorem mem_taken (P : Piece cfg h g k d head l taken post mem' head')
    (inv : Inv cfg Holds slabs h g) (nodup : taken.Nodup)
    (hzero : (h.desc d).counter - taken.length = 0) {x : Nat} (hx : IsOut cfg h.desc g k d x) :
    x ∈ taken := by
  obtain ⟨-, busy⟩ := InUse.busy inv P.inUse
  obtain ⟨nodupFree, sub⟩ := nodup_taken_free inv P.inUse nodup P.isOut
  have hlength : ((cfg k).chunks (h.desc d).data).length ≤ (taken ++ g.free d).length := by
    rw [List.length_append, Config.length_chunks]
    have := busy.sum
    have := P.le
    omega
  have perm := (nodupFree.subperm sub).perm_of_length_le hlength
  obtain hx' | hx' := List.mem_append.mp (perm.mem_iff.mpr hx.chunk)
  · exact hx'
  · exact absurd hx' hx.notFree

theorem isOut_of_kept (P : Piece cfg h g k d head l taken post mem' head') (hin : g'.InUse k d)
    (hfree : g'.free d = taken ++ g.free d) (hdata : (desc' d).data = (h.desc d).data) (x : Nat) :
    IsOut cfg desc' g' k d x ↔ IsOut cfg h.desc g k d x ∧ x ∉ taken := by
  constructor
  · rintro ⟨-, hchunk, hnot⟩
    rw [hfree, List.mem_append, not_or] at hnot
    exact ⟨⟨P.inUse, hdata ▸ hchunk, hnot.2⟩, hnot.1⟩
  · rintro ⟨⟨-, hchunk, hnot⟩, hx⟩
    refine ⟨hin, hdata.symm ▸ hchunk, ?_⟩
    rw [hfree, List.mem_append, not_or]
    exact ⟨hx, hnot⟩

theorem isOut_of_released (P : Piece cfg h g k d head l taken post mem' head')
    (inv : Inv cfg Holds slabs h g) (nodup : taken.Nodup)
    (hzero : (h.desc d).counter - taken.length = 0) (here : ∀ i, d ∈ g'.rings i ↔ i = (k, b))
    (hb : b = .empty ∨ b = .uninit) (x : Nat) :
    IsOut cfg desc' g' k d x ↔ IsOut cfg h.desc g k d x ∧ x ∉ taken := by
  constructor
  · rintro ⟨hin | hin, -, -⟩
    · have := congrArg Prod.snd ((here _).mp hin)
      obtain rfl | rfl := hb <;> cases this
    · have := congrArg Prod.snd ((here _).mp hin)
      obtain rfl | rfl := hb <;> cases this
  · rintro ⟨hx, hnot⟩
    exact absurd (P.mem_taken inv nodup hzero hx) hnot

/-- Taking a piece back moves its page to ring `b`. -/
theorem moves [DecidableEq κ] (P : Piece cfg h g k d head l taken post mem' head')
    (inv : Inv cfg Holds slabs h g)
    (others : ∀ d' ≠ d, ∀ i, d' ∈ g'.rings i ↔ d' ∈ g.rings i)
    (here : ∀ i, d ∈ g'.rings i ↔ i = (k, b))
    (core : ∀ d' ≠ d, (h'.desc d').core = (h.desc d').core)
    (free : g'.free = Function.update g.free d (taken ++ g.free d))
    (out : g'.out = Function.update g.out k (g.out k \ taken.toFinset))
    (mem : ∀ k' d', d' ≠ d → g.Mapped k' d' → ∀ a,
      a / PG_SIZE ∈ ((cfg k').run (h.desc d').data).pages → h'.mem a = h.mem a)
    (page : PageOk (cfg k) h'.mem (h'.desc d) (taken ++ g.free d) b)
    (isOut : ∀ x, IsOut cfg h'.desc g' k d x ↔ IsOut cfg h.desc g k d x ∧ x ∉ taken) :
    Moves cfg h h' g g' k b d where
  others := others
  here := here
  core := core
  free := fun d' hd => by rw [free, Function.update_of_ne hd]
  mem := mem
  page := by rwa [free, Function.update_self]
  otherOut := fun k' hk => by rw [out, Function.update_of_ne hk]
  out := fun x => by
    rw [isOut, out, Function.update_self, Finset.mem_sdiff, List.mem_toFinset]
    constructor
    · rintro ⟨hx, hnot⟩
      by_cases hout : IsOut cfg h.desc g k d x
      · exact .inr ⟨hout, hnot⟩
      · exact .inl ⟨hx, hout⟩
    · rintro (⟨hx, hout⟩ | ⟨hout, hnot⟩)
      · exact ⟨hx, fun ht => hout (P.isOut x ht)⟩
      · exact ⟨inv.out.mpr ⟨d, hout⟩, hnot⟩

/-- Taking a piece back leaves the memory of the other pages alone. -/
theorem mem_other (P : Piece cfg h g k d head l taken post mem' head') (law : Lawful B Holds)
    (inv : Inv cfg Holds slabs h g) {k' : κ} {d' a : Nat} (hd : d' ≠ d) (hmap : g.Mapped k' d')
    (ha : a / PG_SIZE ∈ ((cfg k').run (h.desc d').data).pages) : mem' a = h.mem a := by
  obtain ⟨last, hlast, rfl⟩ := P.last
  refine Function.update_of_ne ?_ _ _
  rintro rfl
  have hout := P.isOut a hlast
  exact hd (inv.eq_of_page hmap hout.inUse.mapped ha
    (inv.chunk_mem_page law hout.inUse.mapped hout.chunk))

/-- Only words on held pages are written. -/
theorem mem_held (P : Piece cfg h g k d head l taken post mem' head') (law : Lawful B Holds)
    (inv : Inv cfg Holds slabs h g) {a : Nat} (ha : ¬HeldPage (runs cfg h.desc g) (a / PG_SIZE)) :
    mem' a = h.mem a := by
  obtain ⟨last, hlast, rfl⟩ := P.last
  refine Function.update_of_ne ?_ _ _
  rintro rfl
  have hout := P.isOut a hlast
  exact ha ⟨_, ⟨k, d, hout.inUse.mapped, rfl⟩,
    inv.chunk_mem_page law hout.inUse.mapped hout.chunk⟩

end Piece

/-- The chunks `taken` have come back to allocator `k`. The bytes of the chunks that are
still out have not changed. -/
structure Returned [DecidableEq κ] (cfg : κ → Config) (h h' : Heap σ) (g g' : Ghost κ) (k : κ)
    (taken : List Nat) : Prop where
  out : g'.out = Function.update g.out k (g.out k \ taken.toFinset)
  frame : ∀ k' x, x ∈ g'.out k' → ∀ a, x ≤ a → a < x + (cfg k').align → h'.mem a = h.mem a

/-- What is still out when a piece has been taken back keeps its bytes. -/
theorem Piece.frame [DecidableEq κ] {taken post : List Nat} {mem' : Mem} {head' : Nat} {b : Kind}
    {slabs' : κ → SCAllocator} {h' : Heap σ} {g' : Ghost κ}
    (P : Piece cfg h g k d head l taken post mem' head')
    (law : Lawful B Holds) (inv : Inv cfg Holds slabs h g) (inv' : Inv cfg Holds slabs' h' g')
    (move : Moves cfg h h' g g' k b d)
    (isOut : ∀ x, IsOut cfg h'.desc g' k d x ↔ IsOut cfg h.desc g k d x ∧ x ∉ taken)
    (hmem : b ≠ .uninit → h'.mem = mem') {k' : κ} {x a : Nat} (hx : x ∈ g'.out k') (ha : x ≤ a)
    (ha' : a < x + (cfg k').align) : h'.mem a = h.mem a := by
  obtain ⟨d', hd'⟩ := inv'.out.mp hx
  by_cases hd : d' = d
  · subst hd
    obtain ⟨rfl, hb⟩ := move.mapped_here_iff.mp hd'.inUse.mapped
    obtain ⟨hout, hnot⟩ := (isOut x).mp hd'
    obtain ⟨last, hlast, rfl⟩ := P.last
    rw [hmem hb, Function.update_of_ne]
    rintro rfl
    have hne : a ≠ x := fun e => hnot (e ▸ hlast)
    have := Config.chunks_apart (P.isOut a hlast).chunk hout.chunk hne
    have := (inv.ok hout.inUse.mapped).align_pos
    omega
  · rw [move.isOut_iff hd] at hd'
    have hmap := hd'.inUse.mapped
    exact move.mem k' d' hd hmap a
      ((inv.ok hmap).chunk_page (inv.placed law hmap) hd'.chunk ha ha')

end Piece

section Move

variable [DecidableEq κ] {cfg : κ → Config} {Holds : σ → Mem → RadixTree → Set Block → Prop}
  {B : PageBackend σ} {slabs : κ → SCAllocator} {h h₁ : Heap σ} {g : Ghost κ} {k : κ}
  {d head head' : Nat} {l taken post : List Nat} {mem' : Mem} {kind : Kind} {self₁ : SCAllocator}
  {R : κ × Kind → List Nat}

/-- The descriptor after a piece has been taken back. -/
def Piece.page (h : Heap σ) (d head : Nat) (taken : List Nat) : ObjectPage :=
  { h.desc d with ptr := head, counter := (h.desc d).counter - taken.length }

/-- The heap after a piece has been taken back. -/
def Piece.heap (h : Heap σ) (d head : Nat) (taken : List Nat) (mem' : Mem) : Heap σ :=
  { h with mem := mem', desc := Function.update h.desc d (Piece.page h d head taken) }

/-- The page is taken off its ring. -/
theorem Piece.removeFrom (inv : Inv cfg Holds slabs h g) (hd : d ∈ g.rings (k, kind))
    (hkind : kind ≠ .empty) :
    ∃ self₁ h₁ R, (slabs k).removeFrom (Piece.heap h d head taken mem') kind d = some (self₁, h₁) ∧
      InHand cfg slabs h g k d self₁ h₁ R ∧ self₁.emptyCount = (slabs k).emptyCount ∧
      h₁.mem = mem' ∧ h₁.tree = h.tree ∧ h₁.back = h.back ∧
      (h₁.desc d).core = (Piece.page h d head taken).core := by
  have threads : (Piece.heap h d head taken mem').desc.Threads
      (starts (Function.update slabs k (slabs k))) g.rings := by
    rw [Function.update_eq_self]
    exact inv.threads.congr fun _ p _ =>
      update_links h.desc d (Piece.page h d head taken) rfl rfl p
  obtain ⟨desc, s, hremove, threads, core⟩ := removeFrom_spec threads hd
  have hand := InHand.of_remove inv hd ((inv.configured k).setStart _ s) threads
    (fun p hp => (core p).trans (congrArg ObjectPage.core (Function.update_of_ne hp _ _)))
    (by rw [if_neg hkind, SCAllocator.emptyCount_setStart])
  refine ⟨_, _, _, hremove, hand.congr (fun _ => ⟨rfl, rfl⟩) (fun _ _ => rfl) rfl rfl,
    SCAllocator.emptyCount_setStart _ _ _, rfl, rfl, rfl, (core d).trans ?_⟩
  exact congrArg ObjectPage.core (Function.update_self _ _ _)

/-- The page goes to the partially used or to the empty ring. -/
theorem Piece.put (P : Piece cfg h g k d head l taken post mem' head') (law : Lawful B Holds)
    (inv : Inv cfg Holds slabs h g) (nodup : taken.Nodup) {b : Kind}
    (hb : b = .partially ∧ (h.desc d).counter - taken.length ≠ 0 ∨
      b = .empty ∧ (h.desc d).counter - taken.length = 0)
    (hand : InHand cfg slabs h g k d self₁ h₁ R) (mem : h₁.mem = mem') (tree : h₁.tree = h.tree)
    (back : h₁.back = h.back) (core₁ : (h₁.desc d).core = (Piece.page h d head taken).core) :
    ∃ self₂ h' g', self₁.insertInto h₁ b d = some (self₂, h') ∧ self₂.emptyCount = self₁.emptyCount ∧
      (∀ self', (∀ kind, self'.start kind = self₂.start kind) → Configured (cfg k) self' →
        self'.emptyCount = (if b = .empty then self₁.emptyCount + 1 else self₁.emptyCount) →
        Inv cfg Holds (Function.update slabs k self') h' g') ∧
      Configured (cfg k) self₂ ∧ Returned cfg h h' g g' k taken := by
  obtain ⟨desc, s, hput, threads, core⟩ := hand.put b
  obtain ⟨hcounter, hdata, hptr⟩ : (desc d).counter = (h.desc d).counter - taken.length ∧
      (desc d).data = (h.desc d).data ∧ (desc d).ptr = head := by
    simpa [ObjectPage.core, Piece.page] using (core d).trans core₁
  obtain ⟨hdata0, busy⟩ := InUse.busy inv P.inUse
  have hmap := P.inUse.mapped
  have hb' : b ≠ .uninit := by
    obtain ⟨rfl, -⟩ | ⟨rfl, -⟩ := hb <;> decide
  let g' : Ghost κ := ⟨putRing R k b d, Function.update g.free d (taken ++ g.free d),
    Function.update g.out k (g.out k \ taken.toFinset)⟩
  have hfree : g'.free d = taken ++ g.free d := Function.update_self _ _ _
  have isOut : ∀ x, IsOut cfg desc g' k d x ↔ IsOut cfg h.desc g k d x ∧ x ∉ taken := by
    obtain ⟨rfl, -⟩ | ⟨rfl, hzero⟩ := hb
    · exact P.isOut_of_kept (.inr ((hand.put_here _).mpr rfl)) hfree hdata
    · exact P.isOut_of_released inv nodup hzero hand.put_here (.inl rfl)
  have page : PageOk (cfg k) h₁.mem (desc d) (taken ++ g.free d) b := by
    obtain ⟨rfl, hpos⟩ | ⟨rfl, hzero⟩ := hb
    · obtain ⟨nodupFree, sub⟩ := nodup_taken_free inv P.inUse nodup P.isOut
      refine ⟨hdata.symm ▸ hdata0, ⟨?_, ?_, nodupFree, ?_, ?_⟩, ?_⟩
      · rw [hcounter]
        exact Nat.pos_of_ne_zero hpos
      · rw [hcounter, List.length_append]
        have := P.le
        have := busy.sum
        omega
      · rwa [hdata]
      · rw [hptr, mem]
        exact P.free
      · simp [P.ne_nil]
    · exact ⟨hdata.symm ▸ hdata0, hcounter.trans hzero⟩
  have move : Moves cfg h { h₁ with desc } g g' k b d :=
    P.moves inv (fun d' hd => hand.put_others hd) hand.put_here
      (fun d' hd => (core d').trans (hand.core d' hd)) rfl rfl
      (fun k' d' hd hmap' a ha => by
        show h₁.mem a = _
        rw [mem]
        exact P.mem_other law inv hd hmap' ha) page isOut
  have hruns : runs cfg desc g' = runs cfg h.desc g := by
    rw [move.runs_eq hb', inv.runs_eq hmap]
    simp only [hdata]
  have hinv : ∀ self', (∀ kind, self'.start kind = (self₁.setStart b s).start kind) →
      Configured (cfg k) self' →
      self'.emptyCount = (if b = .empty then self₁.emptyCount + 1 else self₁.emptyCount) →
      Inv cfg Holds (Function.update slabs k self') { h₁ with desc } g' := by
    intro self' hstart hconf hcount
    refine hand.inv law inv (inv.ok hmap) move rfl ?_ hconf hcount rfl rfl ?_ ?_ ?_
    · rw [starts_congr hstart]
      exact threads
    · show Holds h₁.back h₁.mem h₁.tree (runs cfg desc g')
      rw [hruns, back, mem, tree]
      exact law.use inv.holds (fun a ha => P.mem_held law inv ha) (fun p => .inl rfl)
    · intro k' d' _ _ p _
      show h₁.tree.entry p = _
      rw [tree]
    · intro _
      show ∀ p ∈ ((cfg k).run (desc d).data).pages, h₁.tree.entry p = d
      rw [hdata, tree]
      exact inv.entry hmap
  have hframe : ∀ k' x, x ∈ g'.out k' → ∀ a, x ≤ a → a < x + (cfg k').align → h₁.mem a = h.mem a :=
    fun k' x hx a ha ha' => P.frame law inv
      (hinv { self₁.setStart b s with emptyCount := if b = .empty then self₁.emptyCount + 1
        else self₁.emptyCount } (fun kind => by cases kind <;> rfl)
        ((hand.configured.setStart b s).casesOn fun h₁ h₂ h₃ => ⟨h₁, h₂, h₃⟩) rfl)
      move isOut (fun _ => mem) hx ha ha'
  exact ⟨_, { h₁ with desc }, g', hput, SCAllocator.emptyCount_setStart _ _ _, hinv,
    hand.configured.setStart b s, rfl, hframe⟩

/-- The page is unregistered and given back to the backend. -/
theorem Piece.release (P : Piece cfg h g k d head l taken post mem' head') (law : Lawful B Holds)
    (inv : Inv cfg Holds slabs h g) (nodup : taken.Nodup)
    (hzero : (h.desc d).counter - taken.length = 0)
    (clears : RemoveFits ((cfg k).run (h.desc d).data))
    (hand : InHand cfg slabs h g k d self₁ h₁ R) (mem : h₁.mem = mem') (tree : h₁.tree = h.tree)
    (back : h₁.back = h.back) (core₁ : (h₁.desc d).core = (Piece.page h d head taken).core) :
    ∃ tree₁ self' h' p g', self₁.handleRdTreeRemove h₁.tree (h₁.desc d).data = some tree₁ ∧
      self₁.insertUninit B { h₁ with tree := tree₁ } d = some (self', h', p) ∧
      Inv cfg Holds (Function.update slabs k self') h' g' ∧ Returned cfg h h' g g' k taken := by
  have hmap := P.inUse.mapped
  obtain ⟨-, hdata₁, -⟩ : (h₁.desc d).counter = (h.desc d).counter - taken.length ∧
      (h₁.desc d).data = (h.desc d).data ∧ (h₁.desc d).ptr = head := by
    simpa [ObjectPage.core, Piece.page] using core₁
  obtain ⟨tree₁, hremove, entry₁⟩ := handleRdTreeRemove_spec h₁.tree self₁ hand.configured.pgNum
    (inv.placed law hmap) clears
  rw [tree] at entry₁
  have hand₁ : InHand cfg slabs h g k d self₁ { h₁ with tree := tree₁ } R :=
    hand.congr (fun _ => ⟨rfl, rfl⟩) (fun _ _ => rfl) rfl rfl
  obtain ⟨desc, s, hput, threads, core⟩ := hand₁.put .uninit
  have hdata : (desc d).data = (h.desc d).data := by
    have := core d
    simp only [ObjectPage.core, Prod.mk.injEq] at this
    exact this.2.1.trans hdata₁
  have holds₁ : Holds h.back mem' tree₁ (runs cfg h.desc g) := by
    refine law.use inv.holds (fun a ha => P.mem_held law inv ha) fun p => ?_
    rw [entry₁]
    split
    · next hp => exact .inr ⟨⟨_, ⟨k, d, hmap, rfl⟩, hp⟩, le_rfl, by decide⟩
    · exact .inl rfl
  obtain ⟨back', mem₂, tree₂, hdealloc, holds₂, same⟩ := law.dealloc holds₁ ⟨k, d, hmap, rfl⟩
    (fun p hp => (entry₁ p).trans (if_pos hp))
  have hdiff : runs cfg h.desc g \ {(cfg k).run (h.desc d).data} = otherRuns cfg h.desc g d := by
    rw [inv.runs_eq hmap, Set.insert_sdiff_self_of_notMem (inv.run_not_mem law hmap)]
  rw [hdiff] at holds₂ same
  let page : ObjectPage := { desc d with data := 0, ptr := 0, counter := 0 }
  let h' : Heap σ := { h₁ with
    back := back', mem := mem₂, tree := tree₂, desc := Function.update desc d page }
  let g' : Ghost κ := ⟨putRing R k .uninit d, Function.update g.free d (taken ++ g.free d),
    Function.update g.out k (g.out k \ taken.toFinset)⟩
  have isOut : ∀ x, IsOut cfg h'.desc g' k d x ↔ IsOut cfg h.desc g k d x ∧ x ∉ taken :=
    P.isOut_of_released inv nodup hzero hand.put_here (.inr rfl)
  have hother : ∀ {k' d'}, d' ≠ d → g.Mapped k' d' → ∀ p ∈ ((cfg k').run (h.desc d').data).pages,
      HeldPage (otherRuns cfg h.desc g d) p := fun {k' d'} hd hmap' p hp =>
    ⟨_, ⟨k', d', hd, hmap', rfl⟩, hp⟩
  have move : Moves cfg h h' g g' k .uninit d := by
    refine P.moves inv (fun d' hd => hand.put_others hd) hand.put_here (fun d' hd => ?_) rfl rfl
      (fun k' d' hd hmap' a ha => ?_) ?_ isOut
    · show (Function.update desc d page d').core = _
      rw [Function.update_of_ne hd, core]
      exact hand.core d' hd
    · rw [← P.mem_other law inv hd hmap' ha]
      exact same.mem a (hother hd hmap' _ ha)
    · show (Function.update desc d page d).data = 0 ∧ (Function.update desc d page d).counter = 0
      rw [Function.update_self]
      exact ⟨rfl, rfl⟩
  have inv' : Inv cfg Holds (Function.update slabs k (self₁.setStart .uninit s)) h' g' := by
    refine hand.inv law inv (inv.ok hmap) move rfl
      (threads.congr fun _ p _ => update_links desc d page rfl rfl p)
      (hand.configured.setStart _ s) (SCAllocator.emptyCount_setStart _ _ _) rfl rfl ?_
      (fun k' d' hd hmap' p hp => ?_) (fun hb => absurd rfl hb)
    · rw [move.runs_uninit]
      exact holds₂
    · show tree₂.entry p = _
      rw [same.entry p (hother hd hmap' p hp), entry₁, if_neg]
      exact fun hp' => hd (inv.eq_of_page hmap' hmap hp hp')
  refine ⟨tree₁, _, h', (desc d).data, g', ?_, ?_, inv', rfl, fun k' x hx a ha ha' =>
    P.frame law inv inv' move isOut (fun hb => absurd rfl hb) hx ha ha'⟩
  · rw [hdata₁]
    exact hremove
  · have hpgNum := (hand.configured.setStart .uninit s).pgNum
    have hne : (desc d).data ≠ 0 := by
      rw [hdata]
      exact (InUse.busy inv P.inUse).1
    have hdestroy : ({ h₁ with tree := tree₁, desc := desc } : Heap σ).destroyPage B d
        (self₁.setStart .uninit s).pgNum = some (h', (h.desc d).data) := by
      rw [Heap.destroyPage, if_pos hne, back, mem, hpgNum, hdata]
      show (B.dealloc h.back mem' tree₁ (h.desc d).data (PAGE_SIZE * (cfg k).pgNum) >>= _) = _
      rw [show B.dealloc h.back mem' tree₁ (h.desc d).data (PAGE_SIZE * (cfg k).pgNum) = _ from
        hdealloc]
      rfl
    rw [SCAllocator.insertUninit, hput]
    show (Heap.destroyPage B _ d _ >>= _) = _
    rw [hdestroy, hdata]
    rfl

/-- A partially used page that keeps chunks out stays on its ring. -/
theorem Piece.stay (P : Piece cfg h g k d head l taken post mem' head') (law : Lawful B Holds)
    (inv : Inv cfg Holds slabs h g) (nodup : taken.Nodup) (hd : d ∈ g.rings (k, .partially))
    (hpos : (h.desc d).counter - taken.length ≠ 0) :
    ∃ g', Inv cfg Holds slabs (Piece.heap h d head taken mem') g' ∧
      Returned cfg h (Piece.heap h d head taken mem') g g' k taken := by
  obtain ⟨hdata, busy⟩ := InUse.busy inv P.inUse
  have hmap := P.inUse.mapped
  have hpage : (Piece.heap h d head taken mem').desc d = Piece.page h d head taken :=
    Function.update_self _ _ _
  have hdata' : ((Piece.heap h d head taken mem').desc d).data = (h.desc d).data := by
    rw [hpage]
    rfl
  let g' : Ghost κ := ⟨g.rings, Function.update g.free d (taken ++ g.free d),
    Function.update g.out k (g.out k \ taken.toFinset)⟩
  have here : ∀ i, d ∈ g'.rings i ↔ i = (k, .partially) := fun i =>
    ⟨fun hi => inv.threads.apart hi hd, fun e => e ▸ hd⟩
  have inUse : g'.InUse k d := .inr hd
  have isOut := P.isOut_of_kept inUse (Function.update_self _ _ _) hdata'
  obtain ⟨nodupFree, sub⟩ := nodup_taken_free inv P.inUse nodup P.isOut
  have move : Moves cfg h (Piece.heap h d head taken mem') g g' k .partially d := by
    refine P.moves inv (fun _ _ _ => Iff.rfl) here
      (fun d' hd' => congrArg ObjectPage.core (Function.update_of_ne hd' _ _)) rfl rfl
      (fun k' d' hd' hmap' a ha => P.mem_other law inv hd' hmap' ha) ?_ isOut
    rw [hpage]
    refine ⟨hdata, ⟨Nat.pos_of_ne_zero hpos, ?_, nodupFree, sub, P.free⟩, by simp [P.ne_nil]⟩
    show (h.desc d).counter - taken.length + _ = _
    rw [List.length_append]
    have := P.le
    have := busy.sum
    omega
  have inv' : Inv cfg Holds slabs (Piece.heap h d head taken mem') g' := by
    refine move.inv law inv (inv.ok hmap) (fun i hi => congrArg Prod.fst (inv.threads.apart hi hd))
      inv.configured (inv.threads.congr fun _ p _ =>
        update_links h.desc d (Piece.page h d head taken) rfl rfl p) inv.emptyCount (fun d' => ?_)
      inv.nodup (inv.lt_of_mem hd) inv.bump ?_ (fun _ _ _ _ _ _ => rfl) (fun _ => ?_)
    · constructor
      · exact .inr
      · rintro (rfl | hd')
        · exact inv.created.mpr ⟨_, hd⟩
        · exact hd'
    · rw [move.runs_eq (by decide), hdata', ← inv.runs_eq hmap]
      exact law.use inv.holds (fun a ha => P.mem_held law inv ha) (fun p => .inl rfl)
    · rw [hdata']
      exact inv.entry hmap
  exact ⟨g', inv', rfl, fun k' x hx a ha ha' =>
    P.frame law inv inv' move isOut (fun _ => rfl) hx ha ha'⟩

end Move

section Loop

variable [DecidableEq κ] {cfg : κ → Config} {Holds : σ → Mem → RadixTree → Set Block → Prop}
  {B : PageBackend σ} {slabs : κ → SCAllocator} {h : Heap σ} {g : Ghost κ} {k : κ}
  {head : Nat} {l : List Nat}

/-- A page that keeps chunks out goes to the partially used ring, or stays there. -/
theorem Piece.relocate_kept {d head' : Nat} {taken post : List Nat} {mem' : Mem}
    (P : Piece cfg h g k d head l taken post mem' head') (law : Lawful B Holds)
    (inv : Inv cfg Holds slabs h g) (nodup : taken.Nodup)
    (hpos : (h.desc d).counter - taken.length ≠ 0) :
    ∃ self' h' g', (slabs k).relocate B (Piece.heap h d head taken mem') d
        ((h.desc d).isFull (cfg k).count) = some (self', h') ∧
      Inv cfg Holds (Function.update slabs k self') h' g' ∧ Returned cfg h h' g g' k taken := by
  have hempty : ¬((Piece.heap h d head taken mem').desc d).isEmpty = true := by
    rw [show (Piece.heap h d head taken mem').desc d = Piece.page h d head taken from
      Function.update_self _ _ _]
    exact fun hdec => hpos (of_decide_eq_true hdec)
  obtain hd | hd := P.inUse
  · obtain ⟨-, busy, hfree⟩ := inv.page hd
    have hfull : (h.desc d).isFull (cfg k).count = true := by
      have := busy.sum
      rw [hfree, List.length_nil] at this
      simp only [ObjectPage.isFull, decide_eq_true_eq]
      omega
    obtain ⟨self₁, h₁, R, hremove, hand, hcount, hmem, htree, hback, core⟩ :=
      Piece.removeFrom inv hd (by decide)
    obtain ⟨self₂, h', g', hput, hcount₂, hinv, hconf, ret⟩ := P.put law inv nodup
      (.inl ⟨rfl, hpos⟩) hand hmem htree hback core
    refine ⟨self₂, h', g', ?_, hinv self₂ (fun _ => rfl) hconf hcount₂, ret⟩
    rw [SCAllocator.relocate, if_neg hempty, if_pos hfull, SCAllocator.removeFull, hremove]
    exact hput
  · obtain ⟨-, busy, hfree⟩ := inv.page hd
    have hfull : ¬(h.desc d).isFull (cfg k).count = true := by
      have := busy.sum
      have := List.length_pos_of_ne_nil hfree
      simp only [ObjectPage.isFull, decide_eq_true_eq]
      omega
    obtain ⟨g', inv', ret⟩ := P.stay law inv nodup hd hpos
    refine ⟨slabs k, _, g', ?_, ?_, ret⟩
    · rw [SCAllocator.relocate, if_neg hempty, if_neg hfull]
    · rwa [Function.update_eq_self]

/-- The page is taken off whichever of the two rings it is on. -/
theorem Piece.take {d head' : Nat} {taken post : List Nat} {mem' : Mem}
    (P : Piece cfg h g k d head l taken post mem' head') (inv : Inv cfg Holds slabs h g) :
    ∃ self₁ h₁ R, (if (h.desc d).isFull (cfg k).count = true
        then (slabs k).removeFull (Piece.heap h d head taken mem') d
        else (slabs k).removePartial (Piece.heap h d head taken mem') d) = some (self₁, h₁) ∧
      InHand cfg slabs h g k d self₁ h₁ R ∧ self₁.emptyCount = (slabs k).emptyCount ∧
      h₁.mem = mem' ∧ h₁.tree = h.tree ∧ h₁.back = h.back ∧
      (h₁.desc d).core = (Piece.page h d head taken).core := by
  obtain hd | hd := P.inUse
  · obtain ⟨-, busy, hfree⟩ := inv.page hd
    have hfull : (h.desc d).isFull (cfg k).count = true := by
      have := busy.sum
      rw [hfree, List.length_nil] at this
      simp only [ObjectPage.isFull, decide_eq_true_eq]
      omega
    rw [if_pos hfull]
    exact Piece.removeFrom inv hd (by decide)
  · obtain ⟨-, busy, hfree⟩ := inv.page hd
    have hfull : ¬(h.desc d).isFull (cfg k).count = true := by
      have := busy.sum
      have := List.length_pos_of_ne_nil hfree
      simp only [ObjectPage.isFull, decide_eq_true_eq]
      omega
    rw [if_neg hfull]
    exact Piece.removeFrom inv hd (by decide)

omit [DecidableEq κ] in
/-- The page has no chunks out any more. -/
theorem Piece.isEmpty_heap {d : Nat} {taken : List Nat} {mem' : Mem}
    (hzero : (h.desc d).counter - taken.length = 0) :
    ((Piece.heap h d head taken mem').desc d).isEmpty = true := by
  rw [show (Piece.heap h d head taken mem').desc d = Piece.page h d head taken from
    Function.update_self _ _ _]
  exact decide_eq_true hzero

/-- A page without chunks out goes to the empty ring, or is given back if it can be
cleared. -/
theorem Piece.relocate_empty {d head' : Nat} {taken post : List Nat} {mem' : Mem}
    (P : Piece cfg h g k d head l taken post mem' head') (law : Lawful B Holds)
    (inv : Inv cfg Holds slabs h g) (nodup : taken.Nodup)
    (hzero : (h.desc d).counter - taken.length = 0)
    (clears : 2048 < (slabs k).emptyCount → RemoveFits ((cfg k).run (h.desc d).data)) :
    ∃ self' h' g', (slabs k).relocate B (Piece.heap h d head taken mem') d
        ((h.desc d).isFull (cfg k).count) = some (self', h') ∧
      Inv cfg Holds (Function.update slabs k self') h' g' ∧ Returned cfg h h' g g' k taken := by
  have hempty : ((Piece.heap h d head taken mem').desc d).isEmpty = true :=
    Piece.isEmpty_heap hzero
  obtain ⟨self₁, h₁, R, hremove, hand, hcount, hmem, htree, hback, core⟩ :=
    P.take inv
  have hdata₁ : (h₁.desc d).data ≠ 0 := by
    have hdata := (InUse.busy inv P.inUse).1
    simp only [ObjectPage.core, Prod.mk.injEq] at core
    rw [core.2.1]
    exact hdata
  by_cases hmany : 2048 < self₁.emptyCount
  · obtain ⟨tree₁, self', h', p, g', htree₁, hinsert, inv', ret⟩ :=
      P.release law inv nodup hzero (clears (hcount ▸ hmany)) hand hmem htree hback core
    refine ⟨self', h', g', ?_, inv', ret⟩
    rw [SCAllocator.relocate, if_pos hempty, hremove]
    simp only [Option.bind_eq_bind, Option.bind_some, SCAllocator.tryInsertEty, if_pos hmany,
      Heap.getDataPtr, if_pos hdata₁, htree₁, SCAllocator.insertEty, hinsert]
  · obtain ⟨self₂, h', g', hput, hcount₂, hinv, hconf, ret⟩ := P.put law inv nodup
      (.inr ⟨rfl, hzero⟩) hand hmem htree hback core
    refine ⟨{ self₂ with emptyCount := self₂.emptyCount + 1 }, h', g', ?_,
      hinv _ (fun kind => by cases kind <;> rfl) ⟨hconf.pgNum, hconf.count, hconf.align⟩
        (by rw [if_pos rfl, ← hcount₂]), ret⟩
    rw [SCAllocator.relocate, if_pos hempty, hremove]
    simp only [Option.bind_eq_bind, Option.bind_some, SCAllocator.tryInsertEty, if_neg hmany,
      SCAllocator.insertEty, hput]

/-- With many empty pages a page without chunks out is given back, and the call panics if the
page cannot be cleared. -/
theorem Piece.relocate_eq_none {d head' : Nat} {taken post : List Nat} {mem' : Mem}
    (P : Piece cfg h g k d head l taken post mem' head') (law : Lawful B Holds)
    (inv : Inv cfg Holds slabs h g) (hzero : (h.desc d).counter - taken.length = 0)
    (many : 2048 < (slabs k).emptyCount)
    (misfit : ¬RemoveFits ((cfg k).run (h.desc d).data)) :
    (slabs k).relocate B (Piece.heap h d head taken mem') d
      ((h.desc d).isFull (cfg k).count) = none := by
  obtain ⟨self₁, h₁, R, hremove, hand, hcount, hmem, htree, hback, core⟩ :=
    P.take inv
  have hmap := P.inUse.mapped
  have hdata : (h₁.desc d).data = (h.desc d).data := by
    simp only [ObjectPage.core, Prod.mk.injEq] at core
    exact core.2.1
  have hclear : self₁.handleRdTreeRemove h₁.tree (h.desc d).data = none := by
    refine handleRdTreeRemove_eq_none h₁.tree self₁ hand.configured.pgNum (inv.placed law hmap)
      (fun p hp => ?_) misfit
    rw [htree, inv.entry hmap p hp]
    have := hand.ne_zero
    omega
  rw [SCAllocator.relocate, if_pos (Piece.isEmpty_heap hzero), hremove]
  simp only [Option.bind_eq_bind, Option.bind_some, SCAllocator.tryInsertEty, hcount, if_pos many,
    Heap.getDataPtr, hdata, if_pos (InUse.busy inv P.inUse).1, hclear, Option.bind_none]

omit [DecidableEq κ] in
/-- The loop body finds the page of the first chunk. -/
theorem Piece.deallocateHead {d head' : Nat} {taken post : List Nat} {mem' : Mem}
    (P : Piece cfg h g k d head l taken post mem' head') (law : Lawful B Holds)
    (inv : Inv cfg Holds slabs h g) (hhead : head ∈ taken) :
    (slabs k).deallocateHead B h head = ((slabs k).relocate B (Piece.heap h d head taken mem') d
      ((h.desc d).isFull (cfg k).count)).map fun r => (r.1, r.2, head') := by
  have hmap := P.inUse.mapped
  obtain ⟨kind, hd⟩ : ∃ kind, d ∈ g.rings (k, kind) := P.inUse.elim (⟨_, ·⟩) (⟨_, ·⟩)
  have hlt : head < 2 ^ 48 := by
    have hpage := inv.chunk_mem_page law hmap (P.isOut head hhead).chunk
    have bound := (inv.placed law hmap).bound
    simp only [Config.run, Block.mem_pages, PG_SIZE] at hpage bound
    omega
  have hidx : ((d : Int) % 2 ^ 48).toNat = d := by
    have := inv.lt_of_mem hd
    omega
  have hconf := inv.configured k
  rw [SCAllocator.deallocateHead, getMut_align12k _ hlt,
    entry_of_out law inv (P.isOut head hhead)]
  simp only [Option.bind_eq_bind, Option.bind_some, hidx, if_neg (inv.ne_zero hd), hconf.pgNum,
    hconf.count, P.result]
  show (SCAllocator.relocate B _ (Piece.heap h d head taken mem') d _ >>= _) = _
  cases SCAllocator.relocate B (slabs k) (Piece.heap h d head taken mem') d
    ((h.desc d).isFull (cfg k).count) <;> rfl

/-- One round takes back a first piece of the chain. It panics only if a page has to be given
back that cannot be cleared. -/
theorem deallocateHead_spec (law : Lawful B Holds) (inv : Inv cfg Holds slabs h g)
    (chain : Segment h.mem head l 0) (hne : l ≠ []) (nodup : l.Nodup)
    (hout : ∀ x ∈ l, x ∈ g.out k) :
    (∃ self' h' head' g' taken post, l = taken ++ post ∧ taken ≠ [] ∧
      (slabs k).deallocateHead B h head = some (self', h', head') ∧
      Inv cfg Holds (Function.update slabs k self') h' g' ∧
      Returned cfg h h' g g' k taken ∧ Segment h'.mem head' post 0) ∨
    (slabs k).deallocateHead B h head = none ∧ 2048 < (slabs k).emptyCount ∧
      ∃ d, g.Mapped k d ∧ ¬RemoveFits ((cfg k).run (h.desc d).data) := by
  obtain ⟨d, taken, post, mem', head', P⟩ := exists_piece law inv chain hne nodup hout
  have hnodup := nodup
  rw [P.split] at hnodup
  obtain ⟨htaken, -, hdisj⟩ := List.nodup_append.mp hnodup
  have hhead : head ∈ taken := by
    obtain ⟨y, rest, hl⟩ := List.exists_cons_of_ne_nil P.ne_nil
    have := chain
    rw [P.split, hl, List.cons_append] at this
    rw [hl, this.1]
    exact List.mem_cons_self
  have hcall := P.deallocateHead law inv hhead
  by_cases misfit : (h.desc d).counter - taken.length = 0 ∧ 2048 < (slabs k).emptyCount ∧
      ¬RemoveFits ((cfg k).run (h.desc d).data)
  · obtain ⟨hzero, many, misfit⟩ := misfit
    rw [P.relocate_eq_none law inv hzero many misfit] at hcall
    exact .inr ⟨hcall, many, d, P.inUse.mapped, misfit⟩
  obtain ⟨self', h', g', hrelocate, inv', ret⟩ :
      ∃ self' h' g', (slabs k).relocate B (Piece.heap h d head taken mem') d
          ((h.desc d).isFull (cfg k).count) = some (self', h') ∧
        Inv cfg Holds (Function.update slabs k self') h' g' ∧ Returned cfg h h' g g' k taken := by
    by_cases hzero : (h.desc d).counter - taken.length = 0
    · refine P.relocate_empty law inv htaken hzero fun many => ?_
      by_contra hclear
      exact misfit ⟨hzero, many, hclear⟩
    · exact P.relocate_kept law inv htaken hzero
  rw [hrelocate] at hcall
  refine .inl ⟨self', h', head', g', taken, post, P.split, P.ne_nil, hcall, inv', ret,
    P.rest.congr fun x hx => ?_⟩
  -- The rest of the chain is still out, so its links are as they were.
  have hxout : x ∈ g.out k := hout x (by rw [P.split]; exact List.mem_append_right _ hx)
  obtain ⟨d', hd'⟩ := inv.out.mp hxout
  refine ret.frame k x ?_ x le_rfl (by have := (inv.ok hd'.inUse.mapped).align_pos; omega)
  rw [ret.out, Function.update_self, Finset.mem_sdiff, List.mem_toFinset]
  exact ⟨hxout, fun hx' => hdisj x hx' x hx rfl⟩

/-- The rounds of the loop of `deallocate_batch`, each with the piece of the chain that it
takes. -/
inductive Rounds (B : PageBackend σ) :
    SCAllocator → Heap σ → Nat → List (List Nat) → SCAllocator → Heap σ → Prop where
  | done {self h} : Rounds B self h 0 [] self h
  | round {self self₁ self' : SCAllocator} {h h₁ h' : Heap σ} {head head₁ : Nat}
      {piece : List Nat} {pieces : List (List Nat)} (notNull : head ≠ 0) (ne_nil : piece ≠ [])
      (linked : Segment h.mem head piece head₁)
      (call : self.deallocateHead B h head = some (self₁, h₁, head₁))
      (rest : Rounds B self₁ h₁ head₁ pieces self' h') :
      Rounds B self h head (piece :: pieces) self' h'

omit [DecidableEq κ] in
/-- The loop ends after its rounds. -/
theorem Rounds.deallocateBatch {self self' : SCAllocator} {h' : Heap σ} {pieces : List (List Nat)}
    (rounds : Rounds B self h head pieces self' h') {fuel : Nat} (hfuel : pieces.length ≤ fuel) :
    SCAllocator.deallocateBatch B fuel self h head = some (self', h') := by
  induction rounds generalizing fuel with
  | done => cases fuel <;> rfl
  | round notNull _ _ call _ ih =>
      obtain ⟨fuel, rfl⟩ : ∃ n, fuel = n + 1 := ⟨fuel - 1, by simp at hfuel; omega⟩
      rw [SCAllocator.deallocateBatch, if_neg notNull]
      simp only [call, Option.bind_eq_bind, Option.bind_some, ih (by simpa using hfuel)]

omit [DecidableEq κ] in
/-- Every round takes at least one node. -/
theorem Rounds.length_le {self self' : SCAllocator} {h' : Heap σ} {pieces : List (List Nat)}
    (rounds : Rounds B self h head pieces self' h') : pieces.length ≤ pieces.flatten.length := by
  induction rounds with
  | done => exact Nat.le_refl 0
  | round _ ne_nil _ _ _ ih =>
      have := List.length_pos_of_ne_nil ne_nil
      rw [List.length_cons, List.flatten_cons, List.length_append]
      omega

/-- The runs of `num` pages that are out can be cleared. -/
def Clears (Holds : σ → Mem → RadixTree → Set Block → Prop) (num : Nat) : Prop :=
  ∀ {back mem tree held b}, Holds back mem tree held → b ∈ held → b.num = num → RemoveFits b

omit [DecidableEq κ] in
theorem Inv.not_clears (inv : Inv cfg Holds slabs h g) {d : Nat} (hmap : g.Mapped k d)
    (misfit : ¬RemoveFits ((cfg k).run (h.desc d).data)) : ¬Clears Holds (cfg k).pgNum :=
  fun clears => misfit (clears inv.holds ⟨k, d, hmap, rfl⟩ rfl)

/-- The loop takes back any chain of distinct chunks that are out, piece by piece, unless a run
that is out cannot be cleared. -/
theorem exists_rounds (law : Lawful B Holds) (inv : Inv cfg Holds slabs h g)
    (chain : Segment h.mem head l 0) (nodup : l.Nodup) (hout : ∀ x ∈ l, x ∈ g.out k) :
    (∃ pieces self' h' g', pieces.flatten = l ∧ Rounds B (slabs k) h head pieces self' h' ∧
      Inv cfg Holds (Function.update slabs k self') h' g' ∧ Returned cfg h h' g g' k l) ∨
    (∀ fuel, SCAllocator.deallocateBatch B fuel (slabs k) h head = none) ∧
      ¬Clears Holds (cfg k).pgNum := by
  induction hn : l.length using Nat.strong_induction_on generalizing slabs h g head l with
  | h n ih =>
  by_cases hl : l = []
  · subst hl
    obtain rfl : head = 0 := chain
    refine .inl ⟨[], slabs k, h, g, rfl, .done, ?_, ?_, fun _ _ _ _ _ _ => rfl⟩
    · rwa [Function.update_eq_self]
    · simp
  · have hhead : head ≠ 0 := by
      obtain ⟨x, rest, rfl⟩ := List.exists_cons_of_ne_nil hl
      rw [chain.1]
      obtain ⟨d, hd⟩ := inv.out.mp (hout x List.mem_cons_self)
      have := (inv.ok hd.inUse.mapped).chunk_le hd.chunk
      have := (inv.placed law hd.inUse.mapped).pos
      simp only [Config.run] at this
      omega
    obtain ⟨self₁, h₁, head₁, g₁, taken, post, rfl, hne, hstep, inv₁, ret₁, chain₁⟩ |
        ⟨hstep, -, d, hmap, misfit⟩ := deallocateHead_spec law inv chain hl nodup hout
    swap
    · refine .inr ⟨fun fuel => ?_, inv.not_clears hmap misfit⟩
      cases fuel with
      | zero => exact if_neg hhead
      | succ fuel => rw [SCAllocator.deallocateBatch, if_neg hhead, hstep]; rfl
    obtain ⟨b, htaken, hpost⟩ := Segment.append_iff.mp chain
    obtain rfl : b = head₁ := hpost.start_eq chain₁
    obtain ⟨-, nodup₁, hdisj⟩ := List.nodup_append.mp nodup
    have hout₁ : ∀ x ∈ post, x ∈ g₁.out k := fun x hx => by
      rw [ret₁.out, Function.update_self, Finset.mem_sdiff, List.mem_toFinset]
      exact ⟨hout x (List.mem_append_right _ hx), fun hx' => hdisj x hx' x hx rfl⟩
    have hlength : post.length < n := by
      have := List.length_pos_of_ne_nil hne
      rw [List.length_append] at hn
      omega
    obtain ⟨pieces, self₂, h₂, g₂, hflat, rounds, inv₂, ret₂⟩ | ⟨hnone, misfit⟩ :=
      ih post.length hlength inv₁ chain₁ nodup₁ hout₁ rfl
    swap
    · refine .inr ⟨fun fuel => ?_, misfit⟩
      rw [Function.update_self] at hnone
      cases fuel with
      | zero => exact if_neg hhead
      | succ fuel =>
          rw [SCAllocator.deallocateBatch, if_neg hhead, hstep]
          exact hnone fuel
    rw [Function.update_self] at rounds
    rw [Function.update_idem] at inv₂
    refine .inl ⟨taken :: pieces, self₂, h₂, g₂, ?_, .round hhead hne htaken hstep rounds, inv₂, ?_,
      fun k' x hx a ha ha' => ?_⟩
    · rw [List.flatten_cons, hflat]
    · rw [ret₂.out, ret₁.out, Function.update_self, Function.update_idem, sdiff_sdiff_left,
        List.toFinset_append]
      rfl
    · rw [ret₂.frame k' x hx a ha ha']
      refine ret₁.frame k' x ?_ a ha ha'
      rw [ret₂.out] at hx
      by_cases hk : k' = k
      · subst hk
        rw [Function.update_self] at hx
        exact (Finset.mem_sdiff.mp hx).1
      · rwa [Function.update_of_ne hk] at hx

/-- `deallocate_batch` takes back any chain of distinct chunks that are out. -/
theorem deallocate_spec (law : Lawful B Holds) (inv : Inv cfg Holds slabs h g)
    (clears : Clears Holds (cfg k).pgNum) (chain : Segment h.mem head l 0) (nodup : l.Nodup)
    (hout : ∀ x ∈ l, x ∈ g.out k) {fuel : Nat} (hfuel : l.length ≤ fuel) :
    ∃ self' h' g', SCAllocator.deallocateBatch B fuel (slabs k) h head = some (self', h') ∧
      Inv cfg Holds (Function.update slabs k self') h' g' ∧ Returned cfg h h' g g' k l := by
  obtain ⟨pieces, self', h', g', rfl, rounds, inv', ret⟩ :=
    (exists_rounds law inv chain nodup hout).resolve_right fun h => h.2 clears
  exact ⟨self', h', g', rounds.deallocateBatch (rounds.length_le.trans hfuel), inv', ret⟩

end Loop

end UniAlloc.Slab
