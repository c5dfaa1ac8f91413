import UniAlloc.FreeList.Calls
import UniAlloc.Slab.Backend

/-!
# The free lists as page backend

`FREELIST` with `BUMP` behind it keeps the contract of the page backend, one call after the
other, as long as `mmap` still has a region to give.
-/

namespace UniAlloc

open Radix FreeList Slab

namespace FreeList

/-- The heads of `FREELIST`, `BUMP`, and the regions that `mmap` is going to return. -/
structure Backing where
  lists : Nat → Option Nat
  bump : BumpAlloc
  regions : List Nat

namespace Backing

def new (regions : List Nat) : Backing := ⟨fun _ => none, BumpAlloc.new, regions⟩

def heap (back : Backing) (mem : Mem) (tree : RadixTree) : Heap :=
  ⟨mem, tree, back.lists, back.bump⟩

/-- The regions left after a request that reached `BUMP`. -/
def rest (back : Backing) (size : Nat) : List Nat :=
  if back.bump.Exhausted size then back.regions.tail else back.regions

/-- `BUMP` needs a region for the request, and there is none. -/
def Spent (back : Backing) (size : Nat) : Prop := back.bump.Exhausted size ∧ back.regions = []

instance (back : Backing) (size : Nat) : Decidable (back.Spent size) :=
  inferInstanceAs (Decidable (_ ∧ _))

end Backing

/-- `BuddySystemAllocator` as its callers see it, for requests that the lists can take back, as
long as `mmap` succeeds: with no region left there is no answer. -/
def backend : PageBackend Backing where
  alloc back mem tree size :=
    if BACKEND_MAX_PAGE * PG_SIZE < size then none
    else
      match runCall back.regions.head? (allocEntry size).fuel (back.heap mem tree)
        (allocEntry size) with
      | some (h, .taken ptr _) => some (ptr, ⟨h.lists, h.bump, back.regions⟩, h.mem, h.tree)
      | some (h, .carved ptr _) =>
          some (ptr, ⟨h.lists, h.bump, back.rest size⟩, h.mem, h.tree)
      | _ => none
  dealloc back mem tree ptr size := do
    let (h, _) ← runCall none (Pc.freePrev ptr size).fuel (back.heap mem tree) (.freePrev ptr size)
    some (⟨h.lists, h.bump, back.regions⟩, h.mem, h.tree)

/-- The pages of a region. -/
def InRegion (start p : Nat) : Prop :=
  start / PG_SIZE ≤ p ∧ p < start / PG_SIZE + BumpAlloc.DEFAULT_SIZE / PG_SIZE

/-- The page lies in one of the regions. -/
def Within (all : List Nat) (p : Nat) : Prop := ∃ r ∈ all, InRegion r p

/-- What has been carved and what is left of the current region comes from the regions `mmap`
returns; the ones to come have no page in common with it, nor with each other. -/
structure Ahead (all : List Nat) (bump : BumpAlloc) (carved : Multiset Nat)
    (regions : List Nat) : Prop where
  within : ∀ p ∈ carved, Within all p
  current : ∀ p, bump.checkPoint / PG_SIZE ≤ p → p < bump.current / PG_SIZE → Within all p
  mem : ∀ r ∈ regions, r ∈ all
  fresh : ∀ r ∈ regions, FreshRegion carved r
  unused : ∀ r ∈ regions, ∀ p, bump.checkPoint / PG_SIZE ≤ p → p < bump.current / PG_SIZE →
    ¬InRegion r p
  apart : regions.Pairwise fun r q => ∀ p, InRegion r p → ¬InRegion q p

namespace Ahead

variable {all : List Nat} {bump bump' : BumpAlloc} {carved carved' : Multiset Nat}
  {regions : List Nat} {ptr size mapped : Nat}

theorem of_subset (h : Ahead all bump carved regions) (sub : ∀ p ∈ carved', p ∈ carved) :
    Ahead all bump carved' regions := by
  refine ⟨fun p hp => h.within p (sub p hp), h.current, h.mem, fun r hr => ?_, h.unused, h.apart⟩
  have hfresh := h.fresh r hr
  exact ⟨hfresh.aligned, hfresh.pos, hfresh.bound, fun p hp => hfresh.fresh p (sub p hp)⟩

/-- A run carved from a region is clear of the regions to come. -/
theorem fresh_add {r : Nat} (h : FreshRegion carved r)
    (off : ∀ p ∈ (blockOf ptr size).pages, ¬InRegion r p) :
    FreshRegion ((blockOf ptr size).pages + carved) r := by
  refine ⟨h.aligned, h.pos, h.bound, fun p hp => ?_⟩
  obtain hp | hp := Multiset.mem_add.mp hp
  · have := off p hp
    rw [InRegion] at this
    omega
  · exact h.fresh p hp

/-- The run lies in the region `BUMP` carves from, and the rest of the region shrinks. -/
theorem region_of_alloc (pos : 0 < size) (le : size ≤ BACKEND_MAX_PAGE * PG_SIZE)
    (ok : BumpOk bump carved) (fresh : bump.Exhausted size → FreshRegion carved mapped)
    (hcall : bump.alloc size mapped = (bump', .ok ptr)) :
    ∃ region : BumpAlloc, region = (if bump.Exhausted size then BumpAlloc.init mapped else bump) ∧
      region.checkPoint / PG_SIZE = bump'.checkPoint / PG_SIZE ∧
      bump'.current / PG_SIZE ≤ region.current / PG_SIZE ∧
      ∀ p ∈ (blockOf ptr size).pages,
        region.checkPoint / PG_SIZE ≤ p ∧ p < region.current / PG_SIZE := by
  have hsize := allocSize_eq pos
  have hnum : originSize size + 1 ≤ BACKEND_MAX_PAGE := by
    simp only [originSize, PG_SIZE, BACKEND_MAX_PAGE] at le ⊢
    omega
  obtain ⟨region, hregion, hcheck, hcur, hfits⟩ : ∃ region : BumpAlloc,
      region = (if bump.Exhausted size then BumpAlloc.init mapped else bump) ∧
      region.checkPoint % PG_SIZE = 0 ∧ region.current % PG_SIZE = 0 ∧
      region.checkPoint + BumpAlloc.allocSize size ≤ region.current := by
    refine ⟨_, rfl, ?_⟩
    by_cases hex : bump.Exhausted size
    · obtain ⟨aligned, hpos, bound, -⟩ := fresh hex
      have hstart : mapped ≠ 2 ^ 64 - 1 := by
        simp only [PG_SIZE] at aligned
        omega
      rw [if_pos hex, BumpAlloc.init, if_neg hstart, hsize]
      simp only [PG_SIZE, BumpAlloc.DEFAULT_SIZE, BACKEND_MAX_PAGE] at aligned hnum ⊢
      omega
    · rw [if_neg hex]
      rw [BumpAlloc.Exhausted, not_lt] at hex
      exact ⟨ok.aligned.1, ok.aligned.2, hex⟩
  refine ⟨region, hregion, ?_⟩
  rw [BumpAlloc.alloc, ← hregion, if_pos (by omega)] at hcall
  obtain ⟨rfl, hptr⟩ := Prod.mk.inj hcall
  obtain rfl := Except.ok.inj hptr
  rw [hsize] at hfits ⊢
  simp only [PG_SIZE] at hcheck hcur hfits
  refine ⟨rfl, ?_, fun p hp => ?_⟩
  · simp only [PG_SIZE]
    omega
  · simp only [blockOf, Block.mem_pages, PG_SIZE] at hp ⊢
    omega

/-- The run and the rest of the region come from pages that no region to come contains. -/
theorem shrink {region : BumpAlloc} {rest : List Nat} (h : Ahead all bump carved regions)
    (check : region.checkPoint / PG_SIZE = bump'.checkPoint / PG_SIZE)
    (le : bump'.current / PG_SIZE ≤ region.current / PG_SIZE)
    (inside : ∀ p ∈ (blockOf ptr size).pages,
      region.checkPoint / PG_SIZE ≤ p ∧ p < region.current / PG_SIZE)
    (sub : rest ⊆ regions) (apart : rest.Pairwise fun r q => ∀ p, InRegion r p → ¬InRegion q p)
    (current : ∀ p, region.checkPoint / PG_SIZE ≤ p → p < region.current / PG_SIZE →
      Within all p ∧ ∀ r ∈ rest, ¬InRegion r p) :
    Ahead all bump' ((blockOf ptr size).pages + carved) rest := by
  constructor
  case within =>
    intro p hp
    obtain hp | hp := Multiset.mem_add.mp hp
    · exact (current p (inside p hp).1 (inside p hp).2).1
    · exact h.within p hp
  case current => exact fun p hle hlt => (current p (check ▸ hle) (hlt.trans_le le)).1
  case mem => exact fun r hr => h.mem r (sub hr)
  case fresh =>
    exact fun r hr => fresh_add (h.fresh r (sub hr)) fun p hp =>
      (current p (inside p hp).1 (inside p hp).2).2 r hr
  case unused => exact fun r hr p hle hlt => (current p (check ▸ hle) (hlt.trans_le le)).2 r hr
  case apart => exact apart

/-- `BUMP` carves from its region, or from the next one. -/
theorem carve {back : Backing} (h : Ahead all back.bump carved back.regions)
    (ok : BumpOk back.bump carved) (pos : 0 < size) (le : size ≤ BACKEND_MAX_PAGE * PG_SIZE)
    (supplied : ¬back.Spent size)
    (hcall : back.bump.alloc size (back.regions.head?.getD 0) = (bump', .ok ptr)) :
    Ahead all bump' ((blockOf ptr size).pages + carved) (back.rest size) := by
  by_cases hex : back.bump.Exhausted size
  · rw [Backing.rest, if_pos hex]
    cases hregions : back.regions with
    | nil => exact absurd ⟨hex, hregions⟩ supplied
    | cons start regions =>
        rw [hregions] at h hcall
        have hstart := h.fresh start List.mem_cons_self
        obtain ⟨hapart, hrest⟩ := List.pairwise_cons.mp h.apart
        obtain ⟨region, hregion, hcheck, hcur, hin⟩ :=
          region_of_alloc pos le ok (fun _ => hstart) hcall
        have hne : start ≠ 2 ^ 64 - 1 := by
          have := hstart.aligned
          simp only [PG_SIZE] at this
          omega
        rw [if_pos hex, BumpAlloc.init, if_neg hne] at hregion
        refine h.shrink hcheck hcur hin (List.subset_cons_self _ _) hrest fun p hle hlt => ?_
        have hnew : InRegion start p := by
          have haligned := hstart.aligned
          rw [hregion] at hle hlt
          simp only [InRegion, PG_SIZE, BumpAlloc.DEFAULT_SIZE] at haligned hle hlt ⊢
          omega
        exact ⟨⟨start, h.mem start List.mem_cons_self, hnew⟩, fun r hr => hapart r hr p hnew⟩
  · obtain ⟨region, hregion, hcheck, hcur, hin⟩ :=
      region_of_alloc pos le ok (fun h => absurd h hex) hcall
    rw [if_neg hex] at hregion
    rw [hregion] at hcheck hcur hin
    rw [Backing.rest, if_neg hex]
    exact h.shrink hcheck hcur hin (List.Subset.refl _) h.apart fun p hle hlt =>
      ⟨h.current p hle hlt, fun r hr => h.unused r hr p hle hlt⟩

end Ahead

/-- Between two calls: the runs that are out are the live runs of the page ledger. `live` and
`carved` are the records of the ledger, and `L` is what the lists contain. -/
structure Kept (all : List Nat) (back : Backing) (mem : Mem) (tree : RadixTree) (held : Set Block)
    (live : Multiset Block) (carved : Multiset Nat) (L : Nat → List Nat) : Prop where
  inv : Inv (⟨back.heap mem tree, fun _ => .idle, live, carved⟩ : State Unit) L
  live : ∀ b, b ∈ live ↔ b ∈ held
  clean : ∀ p, ¬HeldPage held p → tree.entry p ≤ 0
  ahead : Ahead all back.bump carved back.regions

/-- What the backend promises its callers. -/
def Keeps (all : List Nat) (back : Backing) (mem : Mem) (tree : RadixTree) (held : Set Block) :
    Prop :=
  ∃ live carved L, Kept all back mem tree held live carved L

namespace Kept

variable {all : List Nat} {back : Backing} {mem : Mem} {tree : RadixTree} {held : Set Block}
  {live : Multiset Block} {carved : Multiset Nat} {L : Nat → List Nat}

theorem mem_livePages (h : Kept all back mem tree held live carved L) {p : Nat} :
    p ∈ live.bind Block.pages ↔ HeldPage held p := by
  simp only [Multiset.mem_bind, HeldPage, h.live]

theorem mem_blocks (h : Kept all back mem tree held live carved L) {b : Block} (hb : b ∈ held) :
    b ∈ blocks live L fun _ : Unit => Pc.idle :=
  Inv.mem_of_live (s := ⟨back.heap mem tree, fun _ => .idle, live, carved⟩) ((h.live b).mpr hb)

theorem wf (h : Kept all back mem tree held live carved L) {b : Block} (hb : b ∈ held) : b.Wf :=
  h.inv.wf b (h.mem_blocks hb)

theorem nodup_live (h : Kept all back mem tree held live carved L) : live.Nodup := by
  have hnodup := h.inv.nodup
  rw [← h.inv.total, blocks, Multiset.add_bind, Multiset.add_bind] at hnodup
  exact Ledger.nodup_of_nodup_bind (Multiset.nodup_add.mp (Multiset.nodup_add.mp hnodup).1).1
    fun b hb => (h.wf ((h.live b).mp hb)).pages_ne_zero

theorem tags (h : Kept all back mem tree held live carved L) {p : Nat} (hout : ¬HeldPage held p) :
    tree.entry p % 2 ^ 48 = 0 := by
  obtain hzero | hneg := (h.clean p hout).eq_or_lt
  · rw [hzero, Int.zero_emod]
  · obtain ⟨idx, hidx, a, ha, hpa⟩ := h.inv.rep.tagged.others p hneg
    obtain ⟨hfirst, hlast⟩ := h.inv.rep.tagged.ends idx hidx a ha
    have htag : tree.entry p = tag idx := by
      obtain rfl | rfl := hpa
      · exact hfirst
      · exact hlast
    rw [htag, tag_eq hidx, Int.mul_emod_left]

/-- The holders write to their runs and register them. -/
theorem use (h : Kept all back mem tree held live carved L) {mem' : Mem} {tree' : RadixTree}
    (same : ∀ a, ¬HeldPage held (a / PG_SIZE) → mem' a = mem a)
    (entry : ∀ p, tree'.entry p = tree.entry p ∨
      HeldPage held p ∧ 0 ≤ tree'.entry p ∧ tree'.entry p < 2 ^ 48) :
    Kept all back mem' tree' held live carved L := by
  have hfree : ∀ p ∈ freePages L, ¬HeldPage held p := fun p hp hheld =>
    h.inv.live_not_free (h.mem_livePages.mpr hheld) hp
  refine ⟨h.inv.frame (h.inv.rep.congr rfl (fun x hx => same x (hfree _ hx)) (fun p hp => ?_)
    fun p hp => ?_) rfl, h.live, fun p hp => ?_, h.ahead⟩
  · exact (entry p).resolve_right fun hheld => hfree p hp hheld.1
  · obtain heq | ⟨-, hnonneg, -⟩ := entry p
    · exact heq ▸ h.inv.rep.nonneg hp
    · exact hnonneg
  · obtain heq | ⟨hheld, -⟩ := entry p
    · exact heq ▸ h.clean p hp
    · exact absurd hheld hp

end Kept

theorem originSize_mul {num : Nat} (hnum : 0 < num) : originSize (PAGE_SIZE * num) = num - 1 := by
  simp only [originSize, PG_SIZE, PAGE_SIZE]
  omega

theorem blockOf_mul (ptr : Nat) {num : Nat} (hnum : 0 < num) :
    blockOf ptr (PAGE_SIZE * num) = ⟨ptr, num⟩ := by
  rw [blockOf, originSize_mul hnum, Nat.sub_add_cancel hnum]

theorem mul_le_max {num : Nat} :
    PAGE_SIZE * num ≤ BACKEND_MAX_PAGE * PG_SIZE ↔ num ≤ BACKEND_MAX_PAGE := by
  simp only [PG_SIZE, PAGE_SIZE, BACKEND_MAX_PAGE]
  omega

theorem allocEntry_ne_idle (size : Nat) : allocEntry size ≠ .idle := by
  rw [allocEntry]
  split <;> simp

theorem request_allocEntry (size : Nat) : (allocEntry size).request = some size := by
  rw [allocEntry]
  split <;> rfl

namespace Kept

variable {all : List Nat} {back : Backing} {mem : Mem} {tree : RadixTree} {held : Set Block}
  {live : Multiset Block} {carved : Multiset Nat} {L L' : Nat → List Nat} {num ptr : Nat}

/-- A call of `alloc` ends with an answer, unless `BUMP` needs a region and there is none. -/
theorem run_alloc (h : Kept all back mem tree held live carved L) {size : Nat} (pos : 0 < size)
    (le : size ≤ BACKEND_MAX_PAGE * PG_SIZE) :
    (∃ hp e L', runCall back.regions.head? (allocEntry size).fuel (back.heap mem tree)
        (allocEntry size) = some (hp, e) ∧
      Goes back.regions.head? (back.heap mem tree) (allocEntry size) hp .idle e ∧
      Inv (State.returned ⟨back.heap mem tree, fun _ => .idle, live, carved⟩ hp e) L' ∧
      Leaves (live.bind Block.pages) (back.heap mem tree) hp) ∨
    runCall back.regions.head? (allocEntry size).fuel (back.heap mem tree) (allocEntry size) =
      none ∧ back.Spent size := by
  have inv := h.inv.callAlloc (t := ()) rfl pos le
  have hpc : Function.update (fun _ : Unit => Pc.idle) () (allocEntry size) =
      fun _ => allocEntry size := funext fun _ => Function.update_self ..
  rw [hpc] at inv
  have hfresh : ∀ n, (allocEntry size).request = some n → back.bump.Exhausted n →
      ∀ start ∈ back.regions.head?, FreshRegion carved start :=
    fun _ _ _ start hstart => h.ahead.fresh start (List.mem_of_mem_head? hstart)
  obtain hrun | ⟨hrun, hnone, size', hsize, hex⟩ :=
    inv.runCall le_rfl (allocEntry_ne_idle size) hfresh
  · exact .inl hrun
  · obtain rfl := Option.some.inj ((request_allocEntry size).symm.trans hsize)
    exact .inr ⟨hrun, hex, List.head?_eq_none_iff.mp hnone⟩

/-- The state after a run has been handed out. -/
theorem hand_out (h : Kept all back mem tree held live carved L) {hp : Heap} {regions : List Nat}
    {b : Block} {carved' : Multiset Nat}
    (inv : Inv (⟨hp, fun _ => .idle, b ::ₘ live, carved'⟩ : State Unit) L')
    (leaves : Leaves (live.bind Block.pages) (back.heap mem tree) hp)
    (ahead : Ahead all hp.bump carved' regions) :
    Kept all ⟨hp.lists, hp.bump, regions⟩ hp.mem hp.tree (insert b held) (b ::ₘ live) carved' L' ∧
      b ∉ held ∧ SameOn held mem hp.mem tree hp.tree ∧ ∀ p ∈ b.pages, hp.tree.entry p = 0 := by
  have hmem : ∀ c, c ∈ b ::ₘ live ↔ c ∈ insert b held := fun c => by
    rw [Multiset.mem_cons, Set.mem_insert_iff, h.live]
  have hclean : ∀ p, ¬HeldPage held p → hp.tree.entry p ≤ 0 := fun p hp' => by
    obtain hsame | hlow := leaves.low p
    · rw [hsame]
      exact h.clean p hp'
    · exact hlow
  have hkept : Kept all ⟨hp.lists, hp.bump, regions⟩ hp.mem hp.tree (insert b held) (b ::ₘ live)
      carved' L' := by
    refine ⟨inv, hmem, fun p hp' => hclean p fun ⟨c, hc, hpc⟩ => hp' ⟨c, ?_, hpc⟩, ahead⟩
    exact Set.mem_insert_of_mem _ hc
  have hfresh : b ∉ live := (Multiset.nodup_cons.mp hkept.nodup_live).1
  refine ⟨hkept, fun hb => hfresh ((h.live b).mpr hb), ⟨fun a ha => ?_, fun p hp' => ?_⟩,
    fun p hpb => ?_⟩
  · exact leaves.mem a (h.mem_livePages.mpr ha)
  · exact leaves.entry p (h.mem_livePages.mpr hp')
  · have hout : ¬HeldPage held p := by
      rintro ⟨c, hc, hpc⟩
      have hcb := inv.eq_of_page (Inv.mem_of_live ((hmem b).mpr (Set.mem_insert _ _)))
        (Inv.mem_of_live ((hmem c).mpr (Set.mem_insert_of_mem _ hc))) hpb hpc
      exact hfresh (hcb ▸ (h.live c).mpr hc)
    refine le_antisymm (hclean p hout) (inv.rep.nonneg (inv.live_not_free ?_))
    exact Multiset.mem_bind.mpr ⟨b, Multiset.mem_cons_self _ _, hpb⟩

theorem alloc (h : Kept all back mem tree held live carved L) (pos : 0 < num) {back' : Backing}
    {mem' : Mem} {tree' : RadixTree}
    (hcall : backend.alloc back mem tree (PAGE_SIZE * num) = some (ptr, back', mem', tree')) :
    (∃ live' carved' L', Kept all back' mem' tree' (insert ⟨ptr, num⟩ held) live' carved' L') ∧
      ⟨ptr, num⟩ ∉ held ∧ SameOn held mem mem' tree tree' ∧
      ∀ p ∈ (⟨ptr, num⟩ : Block).pages, tree'.entry p = 0 := by
  obtain ⟨hle, hcall⟩ := Option.ite_none_left_eq_some.mp hcall
  have hpos : 0 < PAGE_SIZE * num := Nat.mul_pos (by decide) pos
  have hblock := blockOf_mul ptr pos
  obtain ⟨hp, e, L', hrun, hgoes, inv, leaves⟩ | ⟨hrun, -⟩ := h.run_alloc hpos (not_lt.mp hle)
  · rw [hrun] at hcall
    cases hgoes with
    | on hidle => exact absurd rfl hidle
    | taken hreq hbump =>
        obtain rfl := Option.some.inj ((request_allocEntry _).symm.trans hreq)
        cases hcall
        simp only [State.returned, State.record, hblock] at inv
        have hahead : Ahead all hp.bump carved back.regions := hbump ▸ h.ahead
        have hkept := h.hand_out inv leaves hahead
        exact ⟨⟨_, _, _, hkept.1⟩, hkept.2⟩
    | carved hreq hsupplied hbump =>
        obtain rfl := Option.some.inj ((request_allocEntry _).symm.trans hreq)
        cases hcall
        have hahead := h.ahead.carve h.inv.bump hpos (not_lt.mp hle)
          (fun hspent => hsupplied hspent.1 (List.head?_eq_none_iff.mpr hspent.2)) hbump
        simp only [State.returned, State.record, hblock] at inv hahead
        have hkept := h.hand_out inv leaves hahead
        exact ⟨⟨_, _, _, hkept.1⟩, hkept.2⟩
    | failed => cases hcall
    | freed => cases hcall
    | unmapped => cases hcall
  · rw [hrun] at hcall
    cases hcall

/-- A request fails only when `mmap` has nothing left. -/
theorem alloc_eq_none (h : Kept all back mem tree held live carved L) (pos : 0 < num)
    (le : num ≤ BACKEND_MAX_PAGE)
    (hcall : backend.alloc back mem tree (PAGE_SIZE * num) = none) :
    back.Spent (PAGE_SIZE * num) := by
  have hle := mul_le_max.mpr le
  have hpos : 0 < PAGE_SIZE * num := Nat.mul_pos (by decide) pos
  simp only [backend, if_neg (not_lt.mpr hle)] at hcall
  by_contra hspent
  obtain ⟨hp, e, L', hrun, hgoes, -⟩ | ⟨-, hsp⟩ := h.run_alloc hpos hle
  · rw [hrun] at hcall
    cases hgoes with
    | on hidle => exact absurd rfl hidle
    | taken => cases hcall
    | carved => cases hcall
    | failed hreq hbump =>
        obtain rfl := Option.some.inj ((request_allocEntry _).symm.trans hreq)
        have hfresh : back.bump.Exhausted (PAGE_SIZE * num) →
            FreshRegion carved (back.regions.head?.getD 0) := by
          intro hex
          cases hregions : back.regions with
          | nil => exact absurd ⟨hex, hregions⟩ hspent
          | cons start regions => exact h.ahead.fresh start (by rw [hregions]; simp)
        obtain ⟨bump', ptr, hok, -⟩ := h.inv.bump.alloc hpos hle hfresh
        cases hbump.symm.trans hok
    | freed hreq => cases (request_allocEntry _).symm.trans hreq
    | unmapped hreq => cases (request_allocEntry _).symm.trans hreq
  · exact hspent hsp

/-- A run that is out can be given back. -/
theorem dealloc (h : Kept all back mem tree held live carved L) {b : Block} (hb : b ∈ held)
    (zero : ∀ p ∈ b.pages, tree.entry p = 0) :
    ∃ back' mem' tree', backend.dealloc back mem tree b.ptr (PAGE_SIZE * b.num) =
        some (back', mem', tree') ∧
      (∃ live' carved' L', Kept all back' mem' tree' (held \ {b}) live' carved' L') ∧
      SameOn (held \ {b}) mem mem' tree tree' := by
  have wf := h.wf hb
  have hblock := blockOf_mul b.ptr wf.num_pos
  have hlive : blockOf b.ptr (PAGE_SIZE * b.num) ∈ live := hblock ▸ (h.live b).mpr hb
  have inv := h.inv.callFree (t := ()) rfl hlive
  have hpc : Function.update (fun _ : Unit => Pc.idle) () (.freePrev b.ptr (PAGE_SIZE * b.num)) =
      fun _ => .freePrev b.ptr (PAGE_SIZE * b.num) := funext fun _ => Function.update_self ..
  rw [hpc, hblock] at inv
  have hmem : ∀ c, c ∈ live.erase b ↔ c ∈ held \ {b} := fun c => by
    rw [h.nodup_live.mem_erase_iff, Set.mem_sdiff, Set.mem_singleton_iff, h.live, and_comm]
  have hpages : ∀ p, p ∈ (live.erase b).bind Block.pages ↔ HeldPage (held \ {b}) p := fun p => by
    simp only [Multiset.mem_bind, HeldPage, hmem]
  have hfresh : ∀ n, (Pc.freePrev b.ptr (PAGE_SIZE * b.num)).request = some n →
      back.bump.Exhausted n → ∀ start ∈ (none : Option Nat), FreshRegion carved start := by simp
  obtain ⟨hp, e, L', hrun, hgoes, inv', leaves⟩ | ⟨-, -, _, hreq, -⟩ :=
    inv.runCall le_rfl (by simp) hfresh
  · have hout : ∀ c : Multiset Nat, (∀ p ∈ c, p ∈ carved) → hp.bump = back.bump →
        Inv (⟨hp, fun _ => .idle, live.erase b, c⟩ : State Unit) L' →
        Kept all ⟨hp.lists, hp.bump, back.regions⟩ hp.mem hp.tree (held \ {b}) (live.erase b) c
          L' := by
      intro c hsub hbump hinv
      refine ⟨hinv, hmem, fun p hp' => ?_, hbump ▸ h.ahead.of_subset hsub⟩
      obtain hsame | hlow := leaves.low p
      · rw [hsame]
        by_cases hpb : p ∈ b.pages
        · exact (zero p hpb).le
        · refine h.clean p fun ⟨d, hd, hpd⟩ => hp' ⟨d, ⟨hd, ?_⟩, hpd⟩
          rintro rfl
          exact hpb hpd
      · exact hlow
    have hsame : SameOn (held \ {b}) mem hp.mem tree hp.tree :=
      ⟨fun a ha => leaves.mem a ((hpages _).mpr ha),
        fun p hp' => leaves.entry p ((hpages _).mpr hp')⟩
    refine ⟨⟨hp.lists, hp.bump, back.regions⟩, hp.mem, hp.tree, ?_, ?_, hsame⟩
    · simp only [backend, hrun, Option.bind_eq_bind, Option.bind_some]
    · cases hgoes with
      | on hidle => exact absurd rfl hidle
      | taken hreq => cases hreq
      | carved hreq => cases hreq
      | failed hreq => cases hreq
      | freed _ hbump => exact ⟨_, _, _, hout carved (fun _ hp => hp) hbump inv'⟩
      | unmapped _ hbump =>
          exact ⟨_, _, _, hout _ (fun _ hp => Multiset.mem_of_le (Multiset.sub_le_self _ _) hp)
            hbump inv'⟩
  · cases hreq

end Kept

/-- The free lists keep the contract of the page backend. -/
theorem backend_lawful (all : List Nat) : Lawful backend (Keeps all) where
  placed := by
    rintro back mem tree held b ⟨live, carved, L, h⟩ hb
    have wf := h.wf hb
    exact ⟨wf.aligned, wf.pos, wf.num_pos, wf.bound⟩
  apart := by
    rintro back mem tree held b c ⟨live, carved, L, h⟩ hb hc hne p hpb hpc
    exact hne (h.inv.eq_of_page (h.mem_blocks hb) (h.mem_blocks hc) hpb hpc)
  tags := by
    rintro back mem tree held p ⟨live, carved, L, h⟩ hp
    exact h.tags hp
  use := by
    rintro back mem tree held mem' tree' ⟨live, carved, L, h⟩ same entry
    exact ⟨live, carved, L, h.use same entry⟩
  alloc := by
    rintro back mem tree held num ptr back' mem' tree' ⟨live, carved, L, h⟩ hnum hcall
    exact h.alloc hnum hcall
  dealloc := by
    rintro back mem tree held b ⟨live, carved, L, h⟩ hb hzero
    exact h.dealloc hb hzero

end FreeList

end UniAlloc
