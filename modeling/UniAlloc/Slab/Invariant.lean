import UniAlloc.Slab.Rings
import UniAlloc.Linked.Segment

/-!
# The slab invariant

The invariant covers a family of slab allocators over one heap, one for each
`k : κ`. Its ghost state names the descriptors of every ring, the free chunks of
every page and the chunks that are out. One operation moves one descriptor to
another ring; `Inv.move` lists what has to be checked for it.
-/

namespace UniAlloc.Slab

open FreeList Radix

/-- What `new` fixes: the pages, the chunks and the stride of a slab page. -/
structure Config where
  pgNum : Nat
  count : Nat
  align : Nat

namespace Config

def of (sc : SCAllocator) : Config := ⟨sc.pgNum, asUsize sc.pgCount, asUsize sc.pgAlign⟩

/-- The chunks lie in the slab page. -/
structure Ok (c : Config) : Prop where
  num_pos : 0 < c.pgNum
  count_pos : 0 < c.count
  align_pos : 0 < c.align
  fits : c.count * c.align ≤ PAGE_SIZE * c.pgNum

/-- The chunks of the slab page at `data`. -/
def chunks (c : Config) (data : Nat) : List Nat :=
  (List.range c.count).map fun i => data + i * c.align

/-- The pages of the slab page at `data`. -/
def run (c : Config) (data : Nat) : Block := ⟨data, c.pgNum⟩

variable {c : Config} {data x y a : Nat}

theorem mem_chunks : x ∈ c.chunks data ↔ ∃ i < c.count, data + i * c.align = x := by
  simp [chunks]

@[simp] theorem length_chunks : (c.chunks data).length = c.count := by simp [chunks]

theorem Ok.nodup_chunks (h : c.Ok) : (c.chunks data).Nodup := by
  refine List.Nodup.map (fun i j hij => ?_) List.nodup_range
  exact Nat.eq_of_mul_eq_mul_right h.align_pos (Nat.add_left_cancel hij)

/-- Different chunks of a page do not overlap. -/
theorem chunks_apart (hx : x ∈ c.chunks data) (hy : y ∈ c.chunks data) (hxy : x ≠ y) :
    x + c.align ≤ y ∨ y + c.align ≤ x := by
  obtain ⟨i, -, rfl⟩ := mem_chunks.mp hx
  obtain ⟨j, -, rfl⟩ := mem_chunks.mp hy
  obtain hij | hij : i + 1 ≤ j ∨ j + 1 ≤ i := by
    by_contra hij
    exact hxy (by rw [show i = j by omega])
  · have := Nat.mul_le_mul_right c.align hij
    rw [Nat.succ_mul] at this
    omega
  · have := Nat.mul_le_mul_right c.align hij
    rw [Nat.succ_mul] at this
    omega

/-- A chunk lies inside its slab page. -/
theorem Ok.chunk_le (h : c.Ok) (hx : x ∈ c.chunks data) :
    data ≤ x ∧ x + c.align ≤ data + PAGE_SIZE * c.pgNum := by
  obtain ⟨i, hi, rfl⟩ := mem_chunks.mp hx
  have := Nat.mul_le_mul_right c.align (show i + 1 ≤ c.count from hi)
  rw [Nat.succ_mul] at this
  have := h.fits
  omega

theorem mem_run_pages (hdata : data % PG_SIZE = 0) (ha : data ≤ a)
    (ha' : a < data + PAGE_SIZE * c.pgNum) : a / PG_SIZE ∈ (c.run data).pages := by
  simp only [PAGE_SIZE, PG_SIZE, run, Block.mem_pages] at hdata ha' ⊢
  omega

/-- The bytes of a chunk lie on the pages of its run. -/
theorem Ok.chunk_page (h : c.Ok) (placed : (c.run data).Placed) (hx : x ∈ c.chunks data)
    (ha : x ≤ a) (ha' : a < x + c.align) : a / PG_SIZE ∈ (c.run data).pages := by
  have := h.chunk_le hx
  exact mem_run_pages placed.aligned (by omega) (by omega)

theorem Ok.chunk_mem_page (h : c.Ok) (placed : (c.run data).Placed) (hx : x ∈ c.chunks data) :
    x / PG_SIZE ∈ (c.run data).pages :=
  h.chunk_page placed hx le_rfl (by have := h.align_pos; omega)

end Config

/-- A page with chunks out: `free` are the chunks that are not. -/
structure Busy (c : Config) (mem : Mem) (page : ObjectPage) (free : List Nat) : Prop where
  pos : 0 < page.counter
  sum : page.counter + free.length = c.count
  nodup : free.Nodup
  sub : ∀ x ∈ free, x ∈ c.chunks page.data
  chain : Segment mem page.ptr free 0

/-- What the ring of a page says about it. -/
def PageOk (c : Config) (mem : Mem) (page : ObjectPage) (free : List Nat) : Kind → Prop
  | .full => page.data ≠ 0 ∧ Busy c mem page free ∧ free = []
  | .partially => page.data ≠ 0 ∧ Busy c mem page free ∧ free ≠ []
  | .empty => page.data ≠ 0 ∧ page.counter = 0
  | .uninit => page.data = 0 ∧ page.counter = 0

theorem Busy.congr {c : Config} {mem mem' : Mem} {page page' : ObjectPage} {free : List Nat}
    (h : Busy c mem page free) (core : page'.core = page.core)
    (same : ∀ x ∈ free, mem' x = mem x) : Busy c mem' page' free := by
  obtain ⟨hcounter, hdata, hptr⟩ : page'.counter = page.counter ∧ page'.data = page.data ∧
      page'.ptr = page.ptr := by simpa [ObjectPage.core] using core
  refine ⟨by rw [hcounter]; exact h.pos, by rw [hcounter]; exact h.sum, h.nodup, ?_, ?_⟩
  · rw [hdata]
    exact h.sub
  · rw [hptr]
    exact h.chain.congr same

theorem PageOk.congr {c : Config} {mem mem' : Mem} {page page' : ObjectPage} {free : List Nat}
    {kind : Kind} (h : PageOk c mem page free kind) (core : page'.core = page.core)
    (same : kind ≠ .uninit → Busy c mem page free → ∀ x ∈ free, mem' x = mem x) :
    PageOk c mem' page' free kind := by
  obtain ⟨hcounter, hdata, -⟩ : page'.counter = page.counter ∧ page'.data = page.data ∧
      page'.ptr = page.ptr := by simpa [ObjectPage.core] using core
  cases kind with
  | full => exact ⟨hdata ▸ h.1, h.2.1.congr core (same (by decide) h.2.1), h.2.2⟩
  | partially => exact ⟨hdata ▸ h.1, h.2.1.congr core (same (by decide) h.2.1), h.2.2⟩
  | empty => exact ⟨hdata ▸ h.1, hcounter ▸ h.2⟩
  | uninit => exact ⟨hdata.trans h.1, hcounter.trans h.2⟩

/-- The descriptors on the rings, the free chunks of the pages with chunks out, and the
chunks that are out. -/
structure Ghost (κ : Type) where
  rings : κ × Kind → List Nat
  free : Nat → List Nat
  out : κ → Finset Nat

namespace Ghost

variable {κ : Type} (g : Ghost κ)

def new : Ghost κ := ⟨fun _ => [], fun _ => [], fun _ => ∅⟩

/-- The descriptor has a slab page. -/
def Mapped (k : κ) (d : Nat) : Prop := ∃ kind, kind ≠ .uninit ∧ d ∈ g.rings (k, kind)

/-- Chunks of the page may be out. -/
def InUse (k : κ) (d : Nat) : Prop := d ∈ g.rings (k, .full) ∨ d ∈ g.rings (k, .partially)

theorem InUse.mapped {k : κ} {d : Nat} (h : g.InUse k d) : g.Mapped k d := by
  obtain h | h := h
  · exact ⟨.full, by decide, h⟩
  · exact ⟨.partially, by decide, h⟩

end Ghost

variable {κ σ : Type}

/-- The runs of the mapped descriptors. -/
def runs (cfg : κ → Config) (desc : Descs) (g : Ghost κ) : Set Block :=
  {b | ∃ k d, g.Mapped k d ∧ b = (cfg k).run (desc d).data}

/-- The runs of the mapped descriptors other than `d`. -/
def otherRuns (cfg : κ → Config) (desc : Descs) (g : Ghost κ) (d : Nat) : Set Block :=
  {b | ∃ k d', d' ≠ d ∧ g.Mapped k d' ∧ b = (cfg k).run (desc d').data}

/-- The chunk `x` of page `d` is out. -/
structure IsOut (cfg : κ → Config) (desc : Descs) (g : Ghost κ) (k : κ) (d x : Nat) : Prop where
  inUse : g.InUse k d
  chunk : x ∈ (cfg k).chunks (desc d).data
  notFree : x ∉ g.free d

section Rings

variable {ι : Type} [DecidableEq ι] {rings : ι → List Nat} {i j : ι} {d d' : Nat}

theorem mem_erase_iff (hd : d' ≠ d) :
    d' ∈ Function.update rings i ((rings i).erase d) j ↔ d' ∈ rings j := by
  by_cases h : j = i
  · subst h
    rw [Function.update_self, List.mem_erase_of_ne hd]
  · rw [Function.update_of_ne h]

theorem not_mem_erase {desc : Descs} {start : ι → Nat} (h : desc.Threads start rings)
    (hd : d ∈ rings i) : d ∉ Function.update rings i ((rings i).erase d) j := by
  by_cases hj : j = i
  · subst hj
    rw [Function.update_self]
    exact (h.nodup j).not_mem_erase
  · rw [Function.update_of_ne hj]
    exact fun hd' => hj (h.apart hd' hd)

theorem mem_concat_iff (hd : d' ≠ d) :
    d' ∈ Function.update rings i (rings i ++ [d]) j ↔ d' ∈ rings j := by
  by_cases h : j = i
  · subst h
    rw [Function.update_self]
    simp [hd]
  · rw [Function.update_of_ne h]

theorem self_mem_concat_iff (hd : ∀ j, d ∉ rings j) :
    d ∈ Function.update rings i (rings i ++ [d]) j ↔ j = i := by
  by_cases h : j = i
  · subst h
    simp [Function.update_self]
  · rw [Function.update_of_ne h]
    simp [hd, h]

end Rings

/-- The start pointers of a family of allocators. -/
def starts (slabs : κ → SCAllocator) (i : κ × Kind) : Nat := (slabs i.1).start i.2

/-- The allocator has the parameters it was created with. -/
structure Configured (c : Config) (sc : SCAllocator) : Prop where
  pgNum : sc.pgNum = c.pgNum
  count : asUsize sc.pgCount = c.count
  align : asUsize sc.pgAlign = c.align

/-- The descriptors handed out lie outside the rest of the current region. -/
structure PageBumpAlloc.Ok (bump : PageBumpAlloc) (created : List Nat) : Prop where
  room : bump.start ≤ bump.current ∧ bump.current ≤ bump.start + DEFAULT_SIZE
  whole : (bump.current - bump.start) % OBJECT_PAGE_SIZE = 0
  pos : bump.start < bump.current → 0 < bump.start
  bound : bump.current ≤ 2 ^ 47
  used : ∀ d ∈ created, d < bump.start ∨ bump.current ≤ d

structure Inv (cfg : κ → Config) (Holds : σ → Mem → RadixTree → Set Block → Prop)
    (slabs : κ → SCAllocator) (h : Heap σ) (g : Ghost κ) : Prop where
  configured : ∀ k, Configured (cfg k) (slabs k)
  sound : ∀ {k kind d}, d ∈ g.rings (k, kind) → (cfg k).Ok
  threads : h.desc.Threads (starts slabs) g.rings
  emptyCount : ∀ k, (slabs k).emptyCount = (g.rings (k, .empty)).length
  page : ∀ {k kind d}, d ∈ g.rings (k, kind) → PageOk (cfg k) h.mem (h.desc d) (g.free d) kind
  created : ∀ {d}, d ∈ h.created ↔ ∃ i, d ∈ g.rings i
  nodup : h.created.Nodup
  small : ∀ d ∈ h.created, d < 2 ^ 47
  bump : h.pgBump.Ok h.created
  holds : Holds h.back h.mem h.tree (runs cfg h.desc g)
  entry : ∀ {k d}, g.Mapped k d → ∀ p ∈ ((cfg k).run (h.desc d).data).pages, h.tree.entry p = d
  out : ∀ {k x}, x ∈ g.out k ↔ ∃ d, IsOut cfg h.desc g k d x

namespace Inv

variable {cfg : κ → Config} {Holds : σ → Mem → RadixTree → Set Block → Prop} {B : PageBackend σ}
  {slabs slabs' : κ → SCAllocator} {h h' : Heap σ} {g g' : Ghost κ} {k k' : κ} {d d' x p : Nat}

theorem ne_zero (inv : Inv cfg Holds slabs h g) {i : κ × Kind} (hd : d ∈ g.rings i) : d ≠ 0 :=
  inv.threads.ne_null hd

theorem lt_of_mem (inv : Inv cfg Holds slabs h g) {i : κ × Kind} (hd : d ∈ g.rings i) :
    d < 2 ^ 47 :=
  inv.small d (inv.created.mpr ⟨i, hd⟩)

theorem ok (inv : Inv cfg Holds slabs h g) (hd : g.Mapped k d) : (cfg k).Ok := by
  obtain ⟨kind, -, hd⟩ := hd
  exact inv.sound hd

theorem placed (law : Lawful B Holds) (inv : Inv cfg Holds slabs h g) (hd : g.Mapped k d) :
    ((cfg k).run (h.desc d).data).Placed :=
  law.placed inv.holds ⟨k, d, hd, rfl⟩

/-- Descriptors with a page in common are the same. -/
theorem eq_of_page (inv : Inv cfg Holds slabs h g) (hd : g.Mapped k d) (hd' : g.Mapped k' d')
    (hp : p ∈ ((cfg k).run (h.desc d).data).pages)
    (hp' : p ∈ ((cfg k').run (h.desc d').data).pages) : d = d' := by
  have := (inv.entry hd p hp).symm.trans (inv.entry hd' p hp')
  exact_mod_cast this

/-- A descriptor belongs to one allocator. -/
theorem class_unique (inv : Inv cfg Holds slabs h g) (hd : g.Mapped k d) (hd' : g.Mapped k' d) :
    k = k' := by
  obtain ⟨a, -, ha⟩ := hd
  obtain ⟨b, -, hb⟩ := hd'
  exact congrArg Prod.fst (inv.threads.apart ha hb)

/-- The word of a chunk lies on the pages of its run. -/
theorem chunk_mem_page (law : Lawful B Holds) (inv : Inv cfg Holds slabs h g) (hd : g.Mapped k d)
    (hx : x ∈ (cfg k).chunks (h.desc d).data) :
    x / PG_SIZE ∈ ((cfg k).run (h.desc d).data).pages :=
  (inv.ok hd).chunk_mem_page (inv.placed law hd) hx

/-- A chunk belongs to one page. -/
theorem page_unique (law : Lawful B Holds) (inv : Inv cfg Holds slabs h g)
    (hd : g.Mapped k d) (hd' : g.Mapped k' d') (hx : x ∈ (cfg k).chunks (h.desc d).data)
    (hx' : x ∈ (cfg k').chunks (h.desc d').data) : d = d' :=
  inv.eq_of_page hd hd' (inv.chunk_mem_page law hd hx) (inv.chunk_mem_page law hd' hx')

theorem runs_eq (inv : Inv cfg Holds slabs h g) (hd : g.Mapped k d) :
    runs cfg h.desc g = insert ((cfg k).run (h.desc d).data) (otherRuns cfg h.desc g d) := by
  ext blk
  constructor
  · rintro ⟨k', d', hmap, rfl⟩
    by_cases hdd : d' = d
    · subst hdd
      rw [inv.class_unique hd hmap]
      exact .inl rfl
    · exact .inr ⟨k', d', hdd, hmap, rfl⟩
  · rintro (rfl | ⟨k', d', -, hmap, rfl⟩)
    · exact ⟨k, d, hd, rfl⟩
    · exact ⟨k', d', hmap, rfl⟩

theorem runs_of_not_mapped (hd : ∀ k, ¬g.Mapped k d) :
    runs cfg h.desc g = otherRuns cfg h.desc g d := by
  ext blk
  constructor
  · rintro ⟨k', d', hmap, rfl⟩
    exact ⟨k', d', fun e => hd k' (e ▸ hmap), hmap, rfl⟩
  · rintro ⟨k', d', -, hmap, rfl⟩
    exact ⟨k', d', hmap, rfl⟩

/-- The run of a descriptor is no other run. -/
theorem run_not_mem (law : Lawful B Holds) (inv : Inv cfg Holds slabs h g) (hd : g.Mapped k d) :
    (cfg k).run (h.desc d).data ∉ otherRuns cfg h.desc g d := by
  rintro ⟨k', d', hdd, hmap, hrun⟩
  have placed := inv.placed law hd
  have hp : (h.desc d).data / PG_SIZE ∈ ((cfg k).run (h.desc d).data).pages := by
    have := placed.num_pos
    simpa [Config.run] using this
  exact hdd (inv.eq_of_page hmap hd (hrun ▸ hp) hp)

end Inv

/-- How one operation moves descriptor `d` of allocator `k` to ring `b`: the other
descriptors, their free chunks and the memory on their pages stay as they are. -/
structure Moves (cfg : κ → Config) (h h' : Heap σ) (g g' : Ghost κ) (k : κ) (b : Kind)
    (d : Nat) : Prop where
  others : ∀ d' ≠ d, ∀ i, d' ∈ g'.rings i ↔ d' ∈ g.rings i
  here : ∀ i, d ∈ g'.rings i ↔ i = (k, b)
  core : ∀ d' ≠ d, (h'.desc d').core = (h.desc d').core
  free : ∀ d' ≠ d, g'.free d' = g.free d'
  mem : ∀ k' d', d' ≠ d → g.Mapped k' d' → ∀ a,
    a / PG_SIZE ∈ ((cfg k').run (h.desc d').data).pages → h'.mem a = h.mem a
  page : PageOk (cfg k) h'.mem (h'.desc d) (g'.free d) b
  otherOut : ∀ k' ≠ k, g'.out k' = g.out k'
  out : ∀ x, x ∈ g'.out k ↔
    x ∈ g.out k ∧ ¬IsOut cfg h.desc g k d x ∨ IsOut cfg h'.desc g' k d x

namespace Moves

variable {cfg : κ → Config} {Holds : σ → Mem → RadixTree → Set Block → Prop} {B : PageBackend σ}
  {slabs slabs' : κ → SCAllocator} {h h' : Heap σ} {g g' : Ghost κ} {k k' : κ} {b : Kind}
  {d d' x : Nat}

theorem data_eq (move : Moves cfg h h' g g' k b d) (hd : d' ≠ d) :
    (h'.desc d').data = (h.desc d').data := by
  have := move.core d' hd
  simp only [ObjectPage.core, Prod.mk.injEq] at this
  exact this.2.1

theorem mapped_iff (move : Moves cfg h h' g g' k b d) (hd : d' ≠ d) :
    g'.Mapped k' d' ↔ g.Mapped k' d' := by
  simp only [Ghost.Mapped, move.others d' hd]

theorem mapped_here_iff (move : Moves cfg h h' g g' k b d) :
    g'.Mapped k' d ↔ k' = k ∧ b ≠ .uninit := by
  simp only [Ghost.Mapped, move.here, Prod.mk.injEq]
  constructor
  · rintro ⟨kind, hkind, rfl, rfl⟩
    exact ⟨rfl, hkind⟩
  · rintro ⟨rfl, hb⟩
    exact ⟨b, hb, rfl, rfl⟩

theorem isOut_iff (move : Moves cfg h h' g g' k b d) (hd : d' ≠ d) :
    IsOut cfg h'.desc g' k' d' x ↔ IsOut cfg h.desc g k' d' x := by
  have inUse : g'.InUse k' d' ↔ g.InUse k' d' := by simp only [Ghost.InUse, move.others d' hd]
  constructor
  · rintro ⟨h₁, h₂, h₃⟩
    exact ⟨inUse.mp h₁, move.data_eq hd ▸ h₂, move.free d' hd ▸ h₃⟩
  · rintro ⟨h₁, h₂, h₃⟩
    exact ⟨inUse.mpr h₁, (move.data_eq hd).symm ▸ h₂, (move.free d' hd).symm ▸ h₃⟩

/-- The runs after the move. -/
theorem runs_eq (move : Moves cfg h h' g g' k b d) (hb : b ≠ .uninit) :
    runs cfg h'.desc g' = insert ((cfg k).run (h'.desc d).data) (otherRuns cfg h.desc g d) := by
  ext blk
  constructor
  · rintro ⟨k', d', hmap, rfl⟩
    by_cases hd : d' = d
    · subst hd
      obtain ⟨rfl, -⟩ := move.mapped_here_iff.mp hmap
      exact .inl rfl
    · exact .inr ⟨k', d', hd, (move.mapped_iff hd).mp hmap, by rw [move.data_eq hd]⟩
  · rintro (rfl | ⟨k', d', hd, hmap, rfl⟩)
    · exact ⟨k, d, move.mapped_here_iff.mpr ⟨rfl, hb⟩, rfl⟩
    · exact ⟨k', d', (move.mapped_iff hd).mpr hmap, by rw [move.data_eq hd]⟩

theorem runs_uninit (move : Moves cfg h h' g g' k .uninit d) :
    runs cfg h'.desc g' = otherRuns cfg h.desc g d := by
  ext blk
  constructor
  · rintro ⟨k', d', hmap, rfl⟩
    have hd : d' ≠ d := by
      rintro rfl
      exact (move.mapped_here_iff.mp hmap).2 rfl
    exact ⟨k', d', hd, (move.mapped_iff hd).mp hmap, by rw [move.data_eq hd]⟩
  · rintro ⟨k', d', hd, hmap, rfl⟩
    exact ⟨k', d', (move.mapped_iff hd).mpr hmap, by rw [move.data_eq hd]⟩

/-- A move preserves the invariant, given what it does to the links, the counters, the
bump allocator and the backend. -/
theorem inv (move : Moves cfg h h' g g' k b d) (law : Lawful B Holds)
    (inv : Inv cfg Holds slabs h g) (ok : (cfg k).Ok)
    (old : ∀ i, d ∈ g.rings i → i.1 = k)
    (configured : ∀ k, Configured (cfg k) (slabs' k))
    (threads : h'.desc.Threads (starts slabs') g'.rings)
    (emptyCount : ∀ k, (slabs' k).emptyCount = (g'.rings (k, .empty)).length)
    (created : ∀ d', d' ∈ h'.created ↔ d' = d ∨ d' ∈ h.created)
    (nodup : h'.created.Nodup) (small : d < 2 ^ 47) (bump : h'.pgBump.Ok h'.created)
    (holds : Holds h'.back h'.mem h'.tree (runs cfg h'.desc g'))
    (entry : ∀ k' d', d' ≠ d → g.Mapped k' d' →
      ∀ p ∈ ((cfg k').run (h.desc d').data).pages, h'.tree.entry p = h.tree.entry p)
    (entryHere : b ≠ .uninit → ∀ p ∈ ((cfg k).run (h'.desc d).data).pages, h'.tree.entry p = d) :
    Inv cfg Holds slabs' h' g' where
  configured := configured
  sound := by
    intro k' kind d' hd'
    by_cases hd : d' = d
    · subst hd
      obtain ⟨rfl, -⟩ : k' = k ∧ kind = b := by simpa using (move.here _).mp hd'
      exact ok
    · exact inv.sound ((move.others d' hd _).mp hd')
  threads := threads
  emptyCount := emptyCount
  page := by
    intro k' kind d' hd'
    by_cases hd : d' = d
    · subst hd
      obtain ⟨rfl, rfl⟩ : k' = k ∧ kind = b := by simpa using (move.here _).mp hd'
      exact move.page
    · rw [move.others d' hd] at hd'
      rw [move.free d' hd]
      refine (inv.page hd').congr (move.core d' hd) fun hkind busy x hx => ?_
      have hmap : g.Mapped k' d' := ⟨kind, hkind, hd'⟩
      exact move.mem k' d' hd hmap x (inv.chunk_mem_page law hmap (busy.sub x hx))
  created := by
    intro d'
    rw [created]
    by_cases hd : d' = d
    · simp [hd, move.here]
    · simp only [hd, false_or, inv.created, move.others d' hd]
  nodup := nodup
  small := by
    intro d' hd'
    obtain rfl | hd' := (created d').mp hd'
    · exact small
    · exact inv.small d' hd'
  bump := bump
  holds := holds
  entry := by
    intro k' d' hmap p hp
    by_cases hd : d' = d
    · subst hd
      obtain ⟨rfl, hb⟩ := move.mapped_here_iff.mp hmap
      exact entryHere hb p hp
    · rw [move.data_eq hd] at hp
      rw [move.mapped_iff hd] at hmap
      rw [entry k' d' hd hmap p hp, inv.entry hmap p hp]
  out := by
    intro k' x
    by_cases hk : k' = k
    · subst hk
      rw [move.out, inv.out]
      constructor
      · rintro (⟨⟨d', hd'⟩, hout⟩ | hout)
        · have hd : d' ≠ d := fun e => hout (e ▸ hd')
          exact ⟨d', (move.isOut_iff hd).mpr hd'⟩
        · exact ⟨d, hout⟩
      · rintro ⟨d', hd'⟩
        by_cases hd : d' = d
        · exact .inr (hd ▸ hd')
        · rw [move.isOut_iff hd] at hd'
          refine .inl ⟨⟨d', hd'⟩, fun hout => hd ?_⟩
          exact inv.page_unique law hd'.inUse.mapped hout.inUse.mapped hd'.chunk hout.chunk
    · rw [move.otherOut k' hk, inv.out]
      have hne : ∀ d', IsOut cfg h.desc g k' d' x → d' ≠ d := by
        rintro d' hd' rfl
        obtain hd' | hd' := hd'.inUse
        · exact hk (old _ hd')
        · exact hk (old _ hd')
      have hne' : ∀ d', IsOut cfg h'.desc g' k' d' x → d' ≠ d := by
        rintro d' hd' rfl
        exact hk (move.mapped_here_iff.mp hd'.inUse.mapped).1
      constructor
      · rintro ⟨d', hd'⟩
        exact ⟨d', (move.isOut_iff (hne d' hd')).mpr hd'⟩
      · rintro ⟨d', hd'⟩
        exact ⟨d', (move.isOut_iff (hne' d' hd')).mp hd'⟩

end Moves

end UniAlloc.Slab
