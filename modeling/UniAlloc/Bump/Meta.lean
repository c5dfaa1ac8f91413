import UniAlloc.Bump.Page
import UniAlloc.Linked.Segment
import UniAlloc.Memory

/-!
# The metadata bump allocator

`MetaBumpAlloc` rounds sizes to multiples of the size of a thread cache. Blocks of one
unit are recycled through a list whose links lie in the blocks; all others are cut off
the end of the region of `sc::BumpAlloc`, which takes a new region only when the old
one is used up.
-/

namespace UniAlloc.MetaBump

open PageBump (Build wrappingAdd wrappingSub wrappingSub_of_le Apart)

/-- The sizes of the types for which `init_with_range` makes room. -/
structure Sizes where
  threadCache : Nat
  zoneAllocator : Nat
  efObjectPage : Nat
  pos : 0 < threadCache
  bound : threadCache ≤ 2 ^ 63

structure BumpAlloc where
  start : Nat
  current : Nat
  deriving DecidableEq

namespace BumpAlloc

def DEFAULT_SIZE : Nat := 4 * (1 <<< 24)

def new : BumpAlloc := ⟨0, 0⟩

/-- Nothing is left of the region, or it is wider than `DEFAULT_SIZE`. -/
def Spent (bump : BumpAlloc) : Prop :=
  ¬(bump.start < bump.current ∧ bump.current - bump.start ≤ DEFAULT_SIZE)

instance (bump : BumpAlloc) : Decidable bump.Spent := inferInstanceAs (Decidable (¬_))

/-- `alloc`; `start` is what `mmap` returns if the default build calls it. `Err` is `none`. -/
def alloc (bump : BumpAlloc) (b : Build) (size start : Nat) : BumpAlloc × Option Nat :=
  if bump.Spent then
    match b with
    | .mapped =>
        let newCur := wrappingSub (start + DEFAULT_SIZE) size
        (⟨start, newCur⟩, some newCur)
    | .fixedHeap => (bump, none)
  else
    let newCur := wrappingSub bump.current size
    ({ bump with current := newCur }, some newCur)

def pageCount (start finish pageSize : Nat) : Nat := (finish - start) / pageSize

def totalMetadata (sz : Sizes) (pageCount : Nat) : Nat :=
  pageCount * (8 + sz.efObjectPage) + sz.threadCache + sz.zoneAllocator

/-- The end of the metadata, rounded up to pages. -/
def metaEnd (sz : Sizes) (start finish pageSize : Nat) : Nat :=
  start + pageSize *
    ((totalMetadata sz (pageCount start finish pageSize) + pageSize - 1) / pageSize)

/-- `init_with_range`: the blocks taken from the metadata of the heap for the thread cache, the
zone, the page descriptors and the radix tree. -/
def initWithRange (sz : Sizes) (start finish pageSize : Nat) : Option BumpAlloc := do
  let pageCount := pageCount start finish pageSize
  let (bump, tcache) :=
    alloc ⟨start, metaEnd sz start finish pageSize⟩ .fixedHeap sz.threadCache 0
  let _ ← tcache
  let (bump, zone) := alloc bump .fixedHeap sz.zoneAllocator 0
  let _ ← zone
  let (bump, pageBumpStart) := alloc bump .fixedHeap (pageCount * sz.efObjectPage) 0
  let _ ← pageBumpStart
  let (bump, rdTree) := alloc bump .fixedHeap (pageCount * 8) 0
  let _ ← rdTree
  some bump

end BumpAlloc

structure MetaBumpAlloc where
  bumper : BumpAlloc
  backup : Nat
  deriving DecidableEq

/-- `(size + alloc_unit - 1) / alloc_unit * alloc_unit`. -/
def roundSize (unit size : Nat) : Nat := wrappingAdd size (unit - 1) / unit * unit

namespace MetaBumpAlloc

def new : MetaBumpAlloc := ⟨BumpAlloc.new, 0⟩

def alloc (a : MetaBumpAlloc) (b : Build) (sz : Sizes) (mem : Mem) (size start : Nat) :
    MetaBumpAlloc × Option Nat :=
  let size := roundSize sz.threadCache size
  if size = sz.threadCache ∧ a.backup ≠ 0 then
    ({ a with backup := mem a.backup }, some a.backup)
  else
    let (bumper, ans) := a.bumper.alloc b size start
    ({ a with bumper }, ans)

def dealloc (a : MetaBumpAlloc) (mem : Mem) (ptr : Nat) : Mem × MetaBumpAlloc :=
  (Function.update mem ptr a.backup, { a with backup := ptr })

end MetaBumpAlloc

/-- The memory, the allocator, the regions it owns and the live blocks, each with its address
and its bytes. -/
structure State where
  mem : Mem
  metaBump : MetaBumpAlloc
  owned : List (Nat × Nat)
  live : List (Nat × Nat)

/-- The size rounded up, without a wrap. -/
def rounded (sz : Sizes) (size : Nat) : Nat :=
  (size + sz.threadCache - 1) / sz.threadCache * sz.threadCache

/-- The call is served from the list of recycled blocks. -/
def Recycled (sz : Sizes) (s : State) (size : Nat) : Prop :=
  rounded sz size = sz.threadCache ∧ s.metaBump.backup ≠ 0

instance (sz : Sizes) (s : State) (size : Nat) : Decidable (Recycled sz s size) :=
  inferInstanceAs (Decidable (_ ∧ _))

namespace State

variable (s : State) (b : Build) (sz : Sizes) (size start : Nat)

/-- The regions owned once the call has returned. -/
def ownedAfter : List (Nat × Nat) :=
  if b = .mapped ∧ ¬Recycled sz s size ∧ s.metaBump.bumper.Spent then
    (start, BumpAlloc.DEFAULT_SIZE) :: s.owned
  else s.owned

/-- The state once the call has returned. -/
def alloc : State where
  mem := s.mem
  metaBump := (s.metaBump.alloc b sz s.mem size start).1
  owned := s.ownedAfter b sz size start
  live :=
    match (s.metaBump.alloc b sz s.mem size start).2 with
    | some p => (p, rounded sz size) :: s.live
    | none => s.live

def dealloc (block : Nat × Nat) : State where
  mem := (s.metaBump.dealloc s.mem block.1).1
  metaBump := (s.metaBump.dealloc s.mem block.1).2
  owned := s.owned
  live := s.live.erase block

/-- The owner of a block writes to it. -/
def store (a v : Nat) : State := { s with mem := Function.update s.mem a v }

end State

/-- `mmap` succeeds: a region in user space away from those it returned before. -/
structure Maps (owned : List (Nat × Nat)) (start : Nat) : Prop where
  pos : 0 < start
  bound : start + BumpAlloc.DEFAULT_SIZE ≤ 2 ^ 63
  fresh : ∀ r ∈ owned, Apart (start, BumpAlloc.DEFAULT_SIZE) r

structure Callable (s : State) (b : Build) (size start : Nat) : Prop where
  pos : 1 ≤ size
  bound : size < 2 ^ 64
  maps : b = .mapped → Maps s.owned start

/-- A block lies inside a region and off all live blocks; and when a region with too little left
is asked for more, another one is taken or, with a fixed heap, the call fails. -/
structure Safe (s : State) (b : Build) (sz : Sizes) (size start : Nat) : Prop where
  inside : ∀ p, (s.metaBump.alloc b sz s.mem size start).2 = some p →
    ∃ r ∈ s.ownedAfter b sz size start, r.1 ≤ p ∧ p + rounded sz size ≤ r.1 + r.2
  apart : ∀ p, (s.metaBump.alloc b sz s.mem size start).2 = some p →
    ∀ r ∈ s.live, Apart (p, rounded sz size) r
  renewed : ¬Recycled sz s size →
    s.metaBump.bumper.current - s.metaBump.bumper.start < rounded sz size →
    match b with
    | .mapped => s.ownedAfter b sz size start = (start, BumpAlloc.DEFAULT_SIZE) :: s.owned
    | .fixedHeap => (s.metaBump.alloc b sz s.mem size start).2 = none

/-- The request is served from the list, or the region it is cut from holds it: what is left of
the current one unless that is used up, and then a new one. -/
def Fits (s : State) (b : Build) (sz : Sizes) (size : Nat) : Prop :=
  Recycled sz s size ∨
    if s.metaBump.bumper.Spent then b = .mapped → rounded sz size ≤ BumpAlloc.DEFAULT_SIZE
    else rounded sz size ≤ s.metaBump.bumper.current - s.metaBump.bumper.start

instance (s : State) (b : Build) (sz : Sizes) (size : Nat) : Decidable (Fits s b sz size) :=
  inferInstanceAs (Decidable (Recycled sz s size ∨
    if s.metaBump.bumper.Spent then b = .mapped → rounded sz size ≤ BumpAlloc.DEFAULT_SIZE
    else rounded sz size ≤ s.metaBump.bumper.current - s.metaBump.bumper.start))

inductive Move where
  | alloc (size start : Nat)
  | dealloc (block : Nat × Nat)
  | store (a v : Nat)

/-- A call of `alloc`, a live block given back, or a write of its owner. -/
inductive Step (b : Build) (sz : Sizes) : State → Move → State → Prop where
  | alloc {s size start} : Callable s b size start →
      Step b sz s (.alloc size start) (s.alloc b sz size start)
  | dealloc {s block} : block ∈ s.live → Step b sz s (.dealloc block) (s.dealloc block)
  | store {s a v block} : block ∈ s.live → block.1 ≤ a → a < block.1 + block.2 →
      Step b sz s (.store a v) (s.store a v)

/-- The steps in which the requested size fits. -/
def FittingStep (b : Build) (sz : Sizes) (s : State) (m : Move) (t : State) : Prop :=
  Step b sz s m t ∧ ∀ size start, m = .alloc size start → Fits s b sz size

/-- The start: nothing mapped, or what `init_with_range` leaves of the metadata of a heap that has
room for it. -/
inductive Starts (sz : Sizes) : Build → State → Prop where
  | mapped (mem : Mem) : Starts sz .mapped ⟨mem, MetaBumpAlloc.new, [], []⟩
  | fixedHeap (mem : Mem) (start finish pageSize : Nat) (bump : BumpAlloc) : 0 < start →
      BumpAlloc.metaEnd sz start finish pageSize ≤ finish → finish < 2 ^ 64 → 0 < pageSize →
      BumpAlloc.initWithRange sz start finish pageSize = some bump →
      Starts sz .fixedHeap ⟨mem, ⟨bump, 0⟩, [(bump.start, bump.current - bump.start)], []⟩

section

variable {b : Build} {sz : Sizes} {s t : State} {m : Move} {size start n : Nat}
variable {free : List (Nat × Nat)} {r r' o : Nat × Nat}

theorem wrappingSub_of_lt {x y : Nat} (h : x < y) (hy : y ≤ 2 ^ 64) :
    wrappingSub x y + y = 2 ^ 64 + x := by
  rw [wrappingSub, Nat.mod_eq_of_lt (by omega)]
  omega

/-- The rounded size is a positive number of units that holds the size. -/
theorem rounded_spec (sz : Sizes) (h : 1 ≤ size) :
    size ≤ rounded sz size ∧ sz.threadCache ≤ rounded sz size := by
  have hpos := sz.pos
  have hmod := Nat.div_add_mod (size + sz.threadCache - 1) sz.threadCache
  have hlt := Nat.mod_lt (size + sz.threadCache - 1) hpos
  have hunits : 1 ≤ (size + sz.threadCache - 1) / sz.threadCache :=
    (Nat.one_le_div_iff hpos).mpr (by omega)
  have hmul := Nat.mul_le_mul_left sz.threadCache hunits
  rw [rounded, Nat.mul_comm]
  omega

theorem roundSize_of_lt (h : size + sz.threadCache ≤ 2 ^ 64) :
    roundSize sz.threadCache size = rounded sz size := by
  have hpos := sz.pos
  rw [roundSize, wrappingAdd, Nat.mod_eq_of_lt (by omega), rounded, Nat.add_sub_assoc hpos]

/-- A size within a unit of the end of the address space wraps to nothing. -/
theorem roundSize_of_wrap (hsize : size < 2 ^ 64) (h : 2 ^ 64 < size + sz.threadCache) :
    roundSize sz.threadCache size = 0 := by
  have hpos := sz.pos
  have hbound := sz.bound
  have hwrap : (size + (sz.threadCache - 1)) % 2 ^ 64 = size + (sz.threadCache - 1) - 2 ^ 64 := by
    rw [Nat.mod_eq_sub_mod (by omega), Nat.mod_eq_of_lt (by omega)]
  rw [roundSize, wrappingAdd, hwrap, Nat.div_eq_of_lt (by omega), Nat.zero_mul]

/-- A size that fits somewhere does not wrap. -/
theorem roundSize_of_rounded (hpos : 1 ≤ size) (h : rounded sz size ≤ 2 ^ 63) :
    roundSize sz.threadCache size = rounded sz size := by
  have hle := rounded_spec sz hpos
  exact roundSize_of_lt (by omega)

theorem roundSize_eq_unit_iff (sz : Sizes) (hpos : 1 ≤ size) (hsize : size < 2 ^ 64) :
    roundSize sz.threadCache size = sz.threadCache ↔ rounded sz size = sz.threadCache := by
  have hunit := sz.pos
  obtain h | h := Nat.lt_or_ge (2 ^ 64) (size + sz.threadCache)
  · have hle := (rounded_spec sz hpos).1
    have hbound := sz.bound
    rw [roundSize_of_wrap hsize h]
    omega
  · rw [roundSize_of_lt h]

theorem alloc_recycled (hcall : Callable s b size start) (h : Recycled sz s size) :
    s.metaBump.alloc b sz s.mem size start =
      ({ s.metaBump with backup := s.mem s.metaBump.backup }, some s.metaBump.backup) := by
  have hround := (roundSize_eq_unit_iff sz hcall.pos hcall.bound).mpr h.1
  simp only [MetaBumpAlloc.alloc]
  rw [if_pos ⟨hround, h.2⟩]

theorem alloc_bumped (hcall : Callable s b size start) (h : ¬Recycled sz s size) :
    s.metaBump.alloc b sz s.mem size start =
      ({ s.metaBump with
          bumper := (s.metaBump.bumper.alloc b (roundSize sz.threadCache size) start).1 },
        (s.metaBump.bumper.alloc b (roundSize sz.threadCache size) start).2) := by
  have hround := roundSize_eq_unit_iff sz hcall.pos hcall.bound
  simp only [MetaBumpAlloc.alloc]
  rw [if_neg fun hboth => h ⟨hround.mp hboth.1, hboth.2⟩]

/-- `r` lies in `o`. -/
def Inside (r o : Nat × Nat) : Prop := o.1 ≤ r.1 ∧ r.1 + r.2 ≤ o.1 + o.2

theorem apart_symm (h : Apart r r') : Apart r' r := Or.symm h

theorem Inside.apart (h : Inside r o) (ho : Apart r' o) : Apart r' r := by
  obtain ⟨hlo, hhi⟩ := h
  simp only [Apart] at ho ⊢
  omega

/-- What is left of the region of a bump allocator. -/
def BumpAlloc.rest (bump : BumpAlloc) : Nat × Nat := (bump.start, bump.current - bump.start)

/-- `free` are the blocks on the list of recycled ones. These, the live blocks and what is left
of the current region are apart and lie in regions that are owned. -/
structure Inv (sz : Sizes) (s : State) (free : List (Nat × Nat)) : Prop where
  chain : Segment s.mem s.metaBump.backup (free.map Prod.fst) 0
  unit : ∀ r ∈ s.live ++ free, sz.threadCache ≤ r.2
  inside : ∀ r ∈ s.live ++ free, ∃ o ∈ s.owned, Inside r o
  apart : (s.live ++ free).Pairwise Apart
  off : ∀ r ∈ s.live ++ free, Apart s.metaBump.bumper.rest r
  le : s.metaBump.bumper.start ≤ s.metaBump.bumper.current
  region : s.metaBump.bumper.start < s.metaBump.bumper.current →
    ∃ o ∈ s.owned, Inside s.metaBump.bumper.rest o
  owned : ∀ o ∈ s.owned, 0 < o.1 ∧ o.1 + o.2 < 2 ^ 64

/-- A new region in place of the current one. -/
def State.refill (s : State) (start : Nat) : State where
  mem := s.mem
  metaBump := { s.metaBump with bumper := ⟨start, start + BumpAlloc.DEFAULT_SIZE⟩ }
  owned := (start, BumpAlloc.DEFAULT_SIZE) :: s.owned
  live := s.live

theorem rest_refill (s : State) (start : Nat) :
    (s.refill start).metaBump.bumper.rest = (start, BumpAlloc.DEFAULT_SIZE) := by
  simp only [State.refill, BumpAlloc.rest, Nat.add_sub_cancel_left]

theorem Inv.refill (h : Inv sz s free) (hmaps : Maps s.owned start) :
    Inv sz (s.refill start) free where
  chain := h.chain
  unit := h.unit
  inside r hr := by
    obtain ⟨o, ho, hin⟩ := h.inside r hr
    exact ⟨o, List.mem_cons_of_mem _ ho, hin⟩
  apart := h.apart
  off r hr := by
    obtain ⟨o, ho, hin⟩ := h.inside r hr
    rw [rest_refill]
    exact hin.apart (hmaps.fresh o ho)
  le := Nat.le_add_right _ _
  region _ := by
    rw [rest_refill]
    exact ⟨_, List.mem_cons_self, le_rfl, le_rfl⟩
  owned o ho := by
    obtain rfl | ho := List.mem_cons.mp ho
    · exact ⟨hmaps.pos, hmaps.bound.trans_lt (by decide)⟩
    · exact h.owned o ho

/-- A block cut off the end of the region. -/
def State.cut (s : State) (n : Nat) : State where
  mem := s.mem
  metaBump := { s.metaBump with
    bumper := { s.metaBump.bumper with current := s.metaBump.bumper.current - n } }
  owned := s.owned
  live := (s.metaBump.bumper.current - n, n) :: s.live

theorem Inv.cut (h : Inv sz s free) (hunit : sz.threadCache ≤ n)
    (hroom : n ≤ s.metaBump.bumper.current - s.metaBump.bumper.start) : Inv sz (s.cut n) free := by
  have hpos := sz.pos
  obtain ⟨o, ho, hlo, hhi⟩ := h.region (by omega)
  simp only [BumpAlloc.rest] at hlo hhi
  have hnew : Inside (s.metaBump.bumper.current - n, n) s.metaBump.bumper.rest := by
    constructor <;> simp only [BumpAlloc.rest] <;> omega
  have hleft : Inside (s.cut n).metaBump.bumper.rest s.metaBump.bumper.rest := by
    constructor <;> simp only [State.cut, BumpAlloc.rest] <;> omega
  constructor
  case chain => exact h.chain
  case unit =>
    intro r hr
    obtain rfl | hr := List.mem_cons.mp hr
    · exact hunit
    · exact h.unit r hr
  case inside =>
    intro r hr
    obtain rfl | hr := List.mem_cons.mp hr
    · exact ⟨o, ho, by simp only; omega, by simp only; omega⟩
    · exact h.inside r hr
  case apart =>
    refine List.pairwise_cons.mpr ⟨fun r hr => ?_, h.apart⟩
    exact apart_symm (hnew.apart (apart_symm (h.off r hr)))
  case off =>
    intro r hr
    obtain rfl | hr := List.mem_cons.mp hr
    · left
      simp only [State.cut, BumpAlloc.rest]
      omega
    · exact apart_symm (hleft.apart (apart_symm (h.off r hr)))
  case le =>
    simp only [State.cut]
    omega
  case region =>
    intro _
    exact ⟨o, ho, by simp only [State.cut, BumpAlloc.rest]; omega,
      by simp only [State.cut, BumpAlloc.rest]; omega⟩
  case owned => exact h.owned

/-- The head of the list becomes live, with one unit of its bytes. -/
theorem Inv.pop (h : Inv sz s (r :: free)) : Inv sz
    { s with
      metaBump := { s.metaBump with backup := s.mem s.metaBump.backup }
      live := (r.1, sz.threadCache) :: s.live } free := by
  have hunit := h.unit r (by simp)
  have hin : Inside (r.1, sz.threadCache) r := ⟨le_rfl, Nat.add_le_add_left hunit _⟩
  have hperm : (s.live ++ r :: free).Perm (r :: (s.live ++ free)) := List.perm_middle
  have hapart := (hperm.pairwise_iff fun h => apart_symm h).mp h.apart
  obtain ⟨hhead, hapart⟩ := List.pairwise_cons.mp hapart
  have hmem {x : Nat × Nat} (hx : x ∈ s.live ++ free) : x ∈ s.live ++ r :: free :=
    hperm.symm.subset (List.mem_cons_of_mem r hx)
  obtain ⟨hback, hchain⟩ := h.chain
  constructor
  case chain => rwa [hback]
  case unit =>
    intro x hx
    obtain rfl | hx := List.mem_cons.mp hx
    · exact le_rfl
    · exact h.unit x (hmem hx)
  case inside =>
    intro x hx
    obtain rfl | hx := List.mem_cons.mp hx
    · obtain ⟨o, ho, hlo, hhi⟩ := h.inside r (by simp)
      exact ⟨o, ho, hlo, by simp only; omega⟩
    · exact h.inside x (hmem hx)
  case apart =>
    refine List.pairwise_cons.mpr ⟨fun x hx => ?_, hapart⟩
    exact apart_symm (hin.apart (apart_symm (hhead x hx)))
  case off =>
    intro x hx
    obtain rfl | hx := List.mem_cons.mp hx
    · exact hin.apart (h.off r (by simp))
    · exact h.off x (hmem hx)
  case le => exact h.le
  case region => exact h.region
  case owned => exact h.owned

/-- A write into a live block does not touch the links. -/
theorem Inv.write (h : Inv sz s free) (hr : r ∈ s.live) {a : Nat} (hlo : r.1 ≤ a)
    (hhi : a < r.1 + r.2) (v : Nat) : Inv sz (s.store a v) free where
  chain := by
    refine h.chain.congr fun x hx => ?_
    obtain ⟨y, hy, rfl⟩ := List.mem_map.mp hx
    have hpos := sz.pos
    have hunit := h.unit y (List.mem_append_right _ hy)
    have hapart := (List.pairwise_append.mp h.apart).2.2 r hr y hy
    have hne : y.1 ≠ a := by
      simp only [Apart] at hapart
      omega
    exact Function.update_of_ne hne v s.mem
  unit := h.unit
  inside := h.inside
  apart := h.apart
  off := h.off
  le := h.le
  region := h.region
  owned := h.owned

/-- A live block that is given back becomes the head of the list. -/
theorem Inv.push (h : Inv sz s free) (hr : r ∈ s.live) : Inv sz (s.dealloc r) (r :: free) := by
  have hperm : (s.live.erase r ++ r :: free).Perm (s.live ++ free) := by
    refine List.perm_middle.trans ?_
    rw [← List.cons_append]
    exact (List.perm_cons_erase hr).symm.append_right free
  have hpos : 0 < r.1 := by
    obtain ⟨o, ho, hlo, -⟩ := h.inside r (List.mem_append_left _ hr)
    exact (h.owned o ho).1.trans_le hlo
  constructor
  case chain =>
    refine ⟨rfl, ?_⟩
    have hself : (s.dealloc r).mem r.1 = s.metaBump.backup := Function.update_self _ _ _
    rw [hself]
    refine h.chain.congr fun x hx => ?_
    obtain ⟨y, hy, rfl⟩ := List.mem_map.mp hx
    have hunit := h.unit y (List.mem_append_right _ hy)
    have hunit' := h.unit r (List.mem_append_left _ hr)
    have hsize := sz.pos
    have hapart := (List.pairwise_append.mp h.apart).2.2 r hr y hy
    have hne : y.1 ≠ r.1 := by
      simp only [Apart] at hapart
      omega
    exact Function.update_of_ne hne _ s.mem
  case unit => exact fun x hx => h.unit x (hperm.subset hx)
  case inside => exact fun x hx => h.inside x (hperm.subset hx)
  case apart => exact (hperm.pairwise_iff fun h => apart_symm h).mpr h.apart
  case off => exact fun x hx => h.off x (hperm.subset hx)
  case le => exact h.le
  case region => exact h.region
  case owned => exact h.owned

/-- The bump allocator with room for the size cuts it off the end. -/
theorem BumpAlloc.alloc_of_room {bump : BumpAlloc} (hspent : ¬bump.Spent) (hn : n ≤ bump.current)
    (hcurrent : bump.current < 2 ^ 64) :
    bump.alloc b n start =
      ({ bump with current := bump.current - n }, some (bump.current - n)) := by
  simp only [BumpAlloc.alloc]
  rw [if_neg hspent, wrappingSub_of_le hn hcurrent]

theorem BumpAlloc.alloc_of_spent {bump : BumpAlloc} (hspent : bump.Spent)
    (hstart : start + BumpAlloc.DEFAULT_SIZE ≤ 2 ^ 63) (hn : n ≤ BumpAlloc.DEFAULT_SIZE) :
    bump.alloc .mapped n start = (⟨start, start + BumpAlloc.DEFAULT_SIZE - n⟩,
      some (start + BumpAlloc.DEFAULT_SIZE - n)) := by
  simp only [BumpAlloc.alloc]
  rw [if_pos hspent, wrappingSub_of_le (by omega) (by omega)]

theorem Inv.current_lt (h : Inv sz s free) (hspent : ¬s.metaBump.bumper.Spent) :
    s.metaBump.bumper.current < 2 ^ 64 := by
  have hspent := not_not.mp hspent
  obtain ⟨o, ho, hlo, hhi⟩ := h.region hspent.1
  have := (h.owned o ho).2
  simp only [BumpAlloc.rest] at hlo hhi
  omega

/-- What a fitting call returns: the head of the list, a block cut off what is left of the region,
a block cut off a new one, or nothing. -/
theorem Inv.alloc_cases (h : Inv sz s free) (hcall : Callable s b size start)
    (hfits : Fits s b sz size) :
    (∃ r rest, free = r :: rest ∧ Recycled sz s size ∧
      s.metaBump.alloc b sz s.mem size start =
        ({ s.metaBump with backup := s.mem s.metaBump.backup }, some r.1)) ∨
    (¬Recycled sz s size ∧ ¬s.metaBump.bumper.Spent ∧
      rounded sz size ≤ s.metaBump.bumper.current - s.metaBump.bumper.start ∧
      s.metaBump.alloc b sz s.mem size start = ((s.cut (rounded sz size)).metaBump,
        some (s.metaBump.bumper.current - rounded sz size))) ∨
    (b = .mapped ∧ ¬Recycled sz s size ∧ s.metaBump.bumper.Spent ∧
      rounded sz size ≤ BumpAlloc.DEFAULT_SIZE ∧
      s.metaBump.alloc b sz s.mem size start =
        (((s.refill start).cut (rounded sz size)).metaBump,
          some (start + BumpAlloc.DEFAULT_SIZE - rounded sz size))) ∨
    (b = .fixedHeap ∧ ¬Recycled sz s size ∧
      s.metaBump.alloc b sz s.mem size start = (s.metaBump, none)) := by
  by_cases hrec : Recycled sz s size
  · left
    have hrun := alloc_recycled hcall hrec
    cases free with
    | nil => exact (hrec.2 h.chain).elim
    | cons r rest =>
        rw [hrun]
        exact ⟨r, rest, rfl, hrec, by rw [h.chain.1]⟩
  right
  have hrun := alloc_bumped hcall hrec
  have hfits := hfits.resolve_left hrec
  by_cases hspent : s.metaBump.bumper.Spent
  · right
    rw [if_pos hspent] at hfits
    cases b with
    | mapped =>
        left
        have hfits := hfits rfl
        have hsmall : BumpAlloc.DEFAULT_SIZE ≤ 2 ^ 63 := by decide
        rw [roundSize_of_rounded hcall.pos (by omega),
          BumpAlloc.alloc_of_spent hspent (hcall.maps rfl).bound hfits] at hrun
        exact ⟨rfl, hrec, hspent, hfits, hrun⟩
    | fixedHeap =>
        right
        refine ⟨rfl, hrec, ?_⟩
        simp only [hrun, BumpAlloc.alloc, if_pos hspent]
  · left
    rw [if_neg hspent] at hfits
    have hcurrent := h.current_lt hspent
    have hleft := (not_not.mp hspent).2
    have hsmall : BumpAlloc.DEFAULT_SIZE ≤ 2 ^ 63 := by decide
    rw [roundSize_of_rounded hcall.pos (by omega),
      BumpAlloc.alloc_of_room hspent (by omega) (by omega)] at hrun
    exact ⟨hrec, hspent, hfits, hrun⟩

theorem ownedAfter_same (h : Recycled sz s size ∨ ¬s.metaBump.bumper.Spent ∨ b = .fixedHeap) :
    s.ownedAfter b sz size start = s.owned := by
  refine if_neg ?_
  rintro ⟨hb, hrec, hspent⟩
  obtain h | h | h := h
  · exact hrec h
  · exact h hspent
  · rw [hb] at h
    exact Build.noConfusion h

theorem ownedAfter_refill (start : Nat) (hrec : ¬Recycled sz s size)
    (hspent : s.metaBump.bumper.Spent) :
    s.ownedAfter .mapped sz size start = (start, BumpAlloc.DEFAULT_SIZE) :: s.owned :=
  if_pos ⟨rfl, hrec, hspent⟩

/-- A block cut off a region that holds it is safe. -/
theorem Inv.cut_inside (h : Inv sz s free) (hunit : sz.threadCache ≤ n)
    (hroom : n ≤ s.metaBump.bumper.current - s.metaBump.bumper.start) :
    (∃ o ∈ s.owned, Inside (s.metaBump.bumper.current - n, n) o) ∧
      ∀ r ∈ s.live, Apart (s.metaBump.bumper.current - n, n) r := by
  have hcut := h.cut hunit hroom
  constructor
  · exact hcut.inside _ List.mem_cons_self
  · intro r hr
    exact List.rel_of_pairwise_cons hcut.apart (List.mem_append_left _ hr)

theorem Safe.of_some {q : Nat} (hrun : (s.metaBump.alloc b sz s.mem size start).2 = some q)
    (hin : ∃ r ∈ s.ownedAfter b sz size start, Inside (q, rounded sz size) r)
    (hapart : ∀ r ∈ s.live, Apart (q, rounded sz size) r)
    (hrenewed : Recycled sz s size ∨
      rounded sz size ≤ s.metaBump.bumper.current - s.metaBump.bumper.start ∨
      b = .mapped ∧ s.ownedAfter b sz size start = (start, BumpAlloc.DEFAULT_SIZE) :: s.owned) :
    Safe s b sz size start := by
  refine ⟨fun p hp => ?_, fun p hp => ?_, fun hrec hlt => ?_⟩
  · rw [hrun, Option.some.injEq] at hp
    rw [← hp]
    exact hin
  · rw [hrun, Option.some.injEq] at hp
    rw [← hp]
    exact hapart
  · obtain h | h | ⟨rfl, h⟩ := hrenewed
    · exact (hrec h).elim
    · exact absurd h (Nat.not_le_of_lt hlt)
    · exact h

/-- A fitting call is safe and keeps the invariant; the list loses at most its head, which is then
what the call returns. -/
theorem Inv.alloc_spec (h : Inv sz s free) (hcall : Callable s b size start)
    (hfits : Fits s b sz size) :
    Safe s b sz size start ∧ ∃ free', Inv sz (s.alloc b sz size start) free' ∧
      (free' = free ∨ ∃ r, free = r :: free' ∧
        (s.metaBump.alloc b sz s.mem size start).2 = some r.1) := by
  have hunit := (rounded_spec sz hcall.pos).2
  obtain ⟨r, rest, rfl, hrec, hrun⟩ | ⟨hrec, hspent, hroom, hrun⟩ |
    ⟨rfl, hrec, hspent, hroom, hrun⟩ | ⟨rfl, hrec, hrun⟩ := h.alloc_cases hcall hfits
  · have howned : s.ownedAfter b sz size start = s.owned := ownedAfter_same (.inl hrec)
    have hpop := h.pop
    rw [← hrec.1] at hpop
    refine ⟨.of_some (congrArg Prod.snd hrun) ?_ ?_ (.inl hrec), rest, ?_,
      .inr ⟨r, rfl, congrArg Prod.snd hrun⟩⟩
    · rw [howned]
      exact hpop.inside _ List.mem_cons_self
    · exact fun x hx => List.rel_of_pairwise_cons hpop.apart (List.mem_append_left _ hx)
    · simp only [State.alloc, hrun, howned]
      exact hpop
  · have howned : s.ownedAfter b sz size start = s.owned := ownedAfter_same (.inr (.inl hspent))
    obtain ⟨hin, hapart⟩ := h.cut_inside hunit hroom
    refine ⟨.of_some (congrArg Prod.snd hrun) ?_ hapart (.inr (.inl hroom)), free, ?_, .inl rfl⟩
    · rw [howned]
      exact hin
    · simp only [State.alloc, hrun, howned]
      exact h.cut hunit hroom
  · have howned := ownedAfter_refill start hrec hspent
    have hnew := h.refill (hcall.maps rfl)
    have hroom' : rounded sz size ≤ (s.refill start).metaBump.bumper.current -
        (s.refill start).metaBump.bumper.start := by
      simp only [State.refill, Nat.add_sub_cancel_left]
      exact hroom
    obtain ⟨hin, hapart⟩ := hnew.cut_inside hunit hroom'
    refine ⟨.of_some (congrArg Prod.snd hrun) ?_ hapart (.inr (.inr ⟨rfl, howned⟩)), free, ?_,
      .inl rfl⟩
    · rw [howned]
      exact hin
    · simp only [State.alloc, hrun, howned]
      exact hnew.cut hunit hroom'
  · have howned : s.ownedAfter .fixedHeap sz size start = s.owned :=
      ownedAfter_same (.inr (.inr rfl))
    have hnone := congrArg Prod.snd hrun
    refine ⟨⟨fun p hp => ?_, fun p hp => ?_, fun _ _ => hnone⟩, free, ?_, .inl rfl⟩
    · exact absurd (hnone.symm.trans hp) (Option.some_ne_none p).symm
    · exact absurd (hnone.symm.trans hp) (Option.some_ne_none p).symm
    · simp only [State.alloc, hrun, howned]
      exact h

/-- A fitting call is safe and keeps the invariant. -/
theorem Inv.alloc (h : Inv sz s free) (hcall : Callable s b size start)
    (hfits : Fits s b sz size) :
    Safe s b sz size start ∧ ∃ free', Inv sz (s.alloc b sz size start) free' := by
  obtain ⟨hsafe, free', hinv, -⟩ := h.alloc_spec hcall hfits
  exact ⟨hsafe, free', hinv⟩

/-- `mmap` is taken to succeed, and then the default build always returns a block. -/
theorem MetaBumpAlloc.exists_alloc_mapped (a : MetaBumpAlloc) (sz : Sizes) (mem : Mem)
    (size start : Nat) : ∃ p, (a.alloc .mapped sz mem size start).2 = some p := by
  simp only [MetaBumpAlloc.alloc, BumpAlloc.alloc]
  split_ifs <;> exact ⟨_, rfl⟩

/-- What a fitting call of the default build does to the blocks: one more is live, and none that
was live or on the list is lost. -/
theorem Inv.alloc_mapped (h : Inv sz s free) (hcall : Callable s .mapped size start)
    (hfits : Fits s .mapped sz size) :
    ∃ p free', (s.metaBump.alloc .mapped sz s.mem size start).2 = some p ∧ p ≠ 0 ∧
      (s.alloc .mapped sz size start).live = (p, rounded sz size) :: s.live ∧
      Inv sz (s.alloc .mapped sz size start) free' ∧
      ∀ q ∈ (s.live ++ free).map Prod.fst,
        q ∈ ((s.alloc .mapped sz size start).live ++ free').map Prod.fst := by
  obtain ⟨p, hp⟩ := s.metaBump.exists_alloc_mapped sz s.mem size start
  obtain ⟨-, free', hinv, hfree⟩ := h.alloc_spec hcall hfits
  have hlive : (s.alloc .mapped sz size start).live = (p, rounded sz size) :: s.live := by
    simp only [State.alloc, hp]
  refine ⟨p, free', hp, ?_, hlive, hinv, ?_⟩
  · obtain ⟨o, ho, hlo, -⟩ := hinv.inside (p, rounded sz size) (by simp [hlive])
    exact ((hinv.owned o ho).1.trans_le hlo).ne'
  · rw [hlive]
    obtain rfl | ⟨r, rfl, hr⟩ := hfree
    · intro q hq
      exact List.mem_cons_of_mem p hq
    · obtain rfl := Option.some.inj (hp.symm.trans hr)
      simp only [List.map_append, List.map_cons, List.cons_append]
      exact fun q hq => List.perm_middle.subset hq

theorem Inv.step (h : Inv sz s free) (hstep : FittingStep b sz s m t) :
    ∃ free', Inv sz t free' := by
  obtain ⟨hstep, hfits⟩ := hstep
  cases hstep with
  | alloc hcall => exact (h.alloc hcall (hfits _ _ rfl)).2
  | dealloc hr => exact ⟨_, h.push hr⟩
  | store hr hlo hhi => exact ⟨free, h.write hr hlo hhi _⟩

/-- The regions of the default build lie in user space. -/
theorem owned_le (h : Transition.Reachable (Starts sz b) (FittingStep b sz) s) (hb : b = .mapped) :
    ∀ o ∈ s.owned, o.1 + o.2 ≤ 2 ^ 63 := by
  refine h.invariant (I := fun s => ∀ o ∈ s.owned, o.1 + o.2 ≤ 2 ^ 63) ?_ ?_
  · rintro s (⟨mem⟩ | _)
    · exact fun o ho => absurd ho List.not_mem_nil
    · cases hb
  · rintro u m v hu ⟨hstep, -⟩
    cases hstep with
    | alloc hcall =>
        intro o ho
        simp only [State.alloc, State.ownedAfter] at ho
        split at ho
        · obtain rfl | ho := List.mem_cons.mp ho
          · exact (hcall.maps hb).bound
          · exact hu o ho
        · exact hu o ho
    | dealloc => exact hu
    | store => exact hu

/-- A call that does not fit is never safe. -/
theorem not_safe (hcall : Callable s b size start)
    (howned : b = .mapped → ∀ o ∈ s.owned, o.1 + o.2 ≤ 2 ^ 63) (hfits : ¬Fits s b sz size) :
    ¬Safe s b sz size start := by
  intro hsafe
  obtain ⟨hrec, hfits⟩ := not_or.mp hfits
  have hrun := alloc_bumped hcall hrec
  by_cases hspent : s.metaBump.bumper.Spent
  · rw [if_pos hspent, Classical.not_imp] at hfits
    obtain ⟨rfl, hlarge⟩ := hfits
    have hlarge := Nat.lt_of_not_le hlarge
    have hmaps := hcall.maps rfl
    have hbound := hmaps.bound
    simp only [BumpAlloc.alloc, if_pos hspent] at hrun
    -- The block would have to end where the new region does, or past the end of memory.
    obtain ⟨o, ho, hlo, hhi⟩ := hsafe.inside _ (congrArg Prod.snd hrun)
    rw [ownedAfter_refill start hrec hspent] at ho
    have hregion : o.1 + o.2 ≤ 2 ^ 63 := by
      obtain rfl | ho := List.mem_cons.mp ho
      · exact hbound
      · exact howned rfl o ho
    obtain hwrap | hwrap := Nat.lt_or_ge (2 ^ 64) (size + sz.threadCache)
    · have hle := (rounded_spec sz hcall.pos).1
      have hunit := sz.bound
      rw [roundSize_of_wrap hcall.bound hwrap, wrappingSub_of_le (Nat.zero_le _) (by omega)] at hhi
      omega
    · have hmax : roundSize sz.threadCache size ≤ 2 ^ 64 :=
        (Nat.div_mul_le_self _ _).trans (Nat.le_of_lt (Nat.mod_lt _ (by norm_num)))
      rw [roundSize_of_lt hwrap] at hlo hhi hmax
      obtain hin | hout := Nat.lt_or_ge (start + BumpAlloc.DEFAULT_SIZE) (rounded sz size)
      · rw [wrappingSub_of_lt hin hmax] at hhi
        omega
      · rw [wrappingSub_of_le hout (by omega)] at hlo hhi
        obtain rfl | ho := List.mem_cons.mp ho
        · simp only at hlo
          omega
        · have hwidth : 0 < BumpAlloc.DEFAULT_SIZE := by decide
          have := hmaps.fresh o ho
          simp only [Apart] at this
          omega
  · rw [if_neg hspent] at hfits
    have hrenewed := hsafe.renewed hrec (Nat.lt_of_not_le hfits)
    cases b with
    | mapped =>
        simp only [ownedAfter_same (.inr (.inl hspent))] at hrenewed
        exact absurd (congrArg List.length hrenewed) (by simp)
    | fixedHeap =>
        simp only [hrun, BumpAlloc.alloc, if_neg hspent] at hrenewed
        cases hrenewed

/-- With a fixed heap a call on a region with enough left that does not fail cuts the block off. -/
theorem BumpAlloc.alloc_fixed {bump : BumpAlloc} (hn : n ≤ bump.current - bump.start)
    (hcurrent : bump.current < 2 ^ 64) {p : Nat} (h : (bump.alloc .fixedHeap n start).2 = some p) :
    (bump.alloc .fixedHeap n start).1 = ⟨bump.start, bump.current - n⟩ := by
  by_cases hspent : bump.Spent
  · simp only [BumpAlloc.alloc, if_pos hspent] at h
    cases h
  · rw [BumpAlloc.alloc_of_room hspent (by omega) (by omega)]

theorem le_metaEnd (sz : Sizes) (start finish : Nat) {pageSize : Nat} (hpage : 0 < pageSize) :
    BumpAlloc.totalMetadata sz (BumpAlloc.pageCount start finish pageSize) ≤
      BumpAlloc.metaEnd sz start finish pageSize - start := by
  rw [BumpAlloc.metaEnd, Nat.add_sub_cancel_left]
  have hmod := Nat.div_add_mod (BumpAlloc.totalMetadata sz
    (BumpAlloc.pageCount start finish pageSize) + pageSize - 1) pageSize
  have hlt := Nat.mod_lt (BumpAlloc.totalMetadata sz
    (BumpAlloc.pageCount start finish pageSize) + pageSize - 1) hpage
  omega

/-- What `init_with_range` leaves is a region at the start of the metadata. -/
theorem initWithRange_spec {finish pageSize : Nat} {bump : BumpAlloc} (hpage : 0 < pageSize)
    (hend : BumpAlloc.metaEnd sz start finish pageSize < 2 ^ 64)
    (hrun : BumpAlloc.initWithRange sz start finish pageSize = some bump) :
    bump = ⟨start, BumpAlloc.metaEnd sz start finish pageSize -
      BumpAlloc.totalMetadata sz (BumpAlloc.pageCount start finish pageSize)⟩ := by
  have hroom := le_metaEnd sz start finish hpage
  simp only [BumpAlloc.initWithRange, Option.bind_eq_bind, Option.bind_eq_some_iff,
    Option.some.injEq] at hrun
  generalize BumpAlloc.metaEnd sz start finish pageSize = top at *
  generalize BumpAlloc.pageCount start finish pageSize = count at *
  rw [BumpAlloc.totalMetadata, Nat.mul_add] at hroom
  obtain ⟨tcache, h₁, zone, h₂, pageBumpStart, h₃, rdTree, h₄, rfl⟩ := hrun
  have h₁ := BumpAlloc.alloc_fixed (by simp only; omega) hend h₁
  rw [h₁] at h₂ h₃ h₄ ⊢
  have h₂ := BumpAlloc.alloc_fixed (by simp only; omega) (by simp only; omega) h₂
  rw [h₂] at h₃ h₄ ⊢
  have h₃ := BumpAlloc.alloc_fixed (by simp only; omega) (by simp only; omega) h₃
  rw [h₃] at h₄ ⊢
  rw [BumpAlloc.alloc_fixed (by simp only; omega) (by simp only; omega) h₄]
  simp only [BumpAlloc.totalMetadata, BumpAlloc.mk.injEq, true_and, Nat.mul_add]
  omega

theorem inv_start (h : Starts sz b s) : Inv sz s [] := by
  cases h with
  | mapped mem =>
      refine ⟨rfl, ?_, ?_, .nil, ?_, le_rfl, fun h => absurd h (Nat.lt_irrefl 0), ?_⟩
      all_goals exact fun r hr => absurd hr List.not_mem_nil
  | fixedHeap mem start finish pageSize bump hpos hend hfinish hpage hrun =>
      have hbump := initWithRange_spec hpage (hend.trans_lt hfinish) hrun
      have hroom := le_metaEnd sz start finish hpage
      have hend' : start ≤ BumpAlloc.metaEnd sz start finish pageSize := Nat.le_add_right _ _
      have hle : bump.start ≤ bump.current := by
        simp only [hbump]
        omega
      refine ⟨rfl, ?_, ?_, .nil, ?_, hle, fun _ => ?_, ?_⟩
      · exact fun r hr => absurd hr List.not_mem_nil
      · exact fun r hr => absurd hr List.not_mem_nil
      · exact fun r hr => absurd hr List.not_mem_nil
      · exact ⟨_, List.mem_cons_self, le_rfl, le_rfl⟩
      · intro o ho
        obtain rfl := List.mem_singleton.mp ho
        simp only [hbump]
        omega

/-- In every run whose requests fit, the next call is safe exactly when it fits too. -/
theorem meta_safe_iff (h : Transition.Reachable (Starts sz b) (FittingStep b sz) s)
    (hcall : Callable s b size start) : Safe s b sz size start ↔ Fits s b sz size := by
  obtain ⟨free, hinv⟩ : ∃ free, Inv sz s free :=
    h.invariant (I := fun s => ∃ free, Inv sz s free) (fun _ hs => ⟨[], inv_start hs⟩)
      fun u m v hu hstep => hu.elim fun _ hu => hu.step hstep
  constructor
  · intro hsafe
    by_contra hfits
    exact not_safe hcall (owned_le h) hfits hsafe
  · exact fun hfits => (hinv.alloc hcall hfits).1

end

/-- The sizes of the default build. -/
def mappedSizes : Sizes := ⟨2048, 6144, 40, by decide, by decide⟩

/-- The sizes with a fixed heap. -/
def fixedSizes : Sizes := ⟨320, 640, 40, by decide, by decide⟩

/-- Of two thread caches and a zone the first cache has been given back. -/
def givenBack : State :=
  ((((⟨fun _ => 0, MetaBumpAlloc.new, [], []⟩ : State).alloc .mapped mappedSizes 2048
    0x7f0000000000).alloc .mapped mappedSizes 6144 0x7e0000000000).alloc .mapped mappedSizes 2048
      0x7e0000000000).dealloc (0x7f0003fff800, 2048)

/-- A thread cache in the slack that a fixed heap of 50 pages leaves. -/
def inSlack : State :=
  State.alloc ⟨fun _ => 0, ⟨⟨0xffff800000100000, 0xffff8000001002e0⟩, 0⟩,
    [(0xffff800000100000, 0x2e0)], []⟩ .fixedHeap fixedSizes 320 0

theorem meta_safe_iff_givenBack :
    (Safe givenBack .mapped mappedSizes 2048 0x7e0000000000 ↔
      Fits givenBack .mapped mappedSizes 2048) ∧
    (Safe inSlack .fixedHeap fixedSizes 320 0 ↔ Fits inSlack .fixedHeap fixedSizes 320) := by
  have hmaps : Maps [] 0x7f0000000000 :=
    ⟨by decide, by decide, fun r hr => absurd hr List.not_mem_nil⟩
  constructor
  · have r : Transition.Run (FittingStep .mapped mappedSizes)
      ⟨fun _ => 0, MetaBumpAlloc.new, [], []⟩ [] _ := .nil
    have r := r.snoc ⟨@Step.alloc _ _ _ 2048 0x7f0000000000 ⟨by decide, by decide, fun _ => hmaps⟩,
      fun _ _ h => by cases h; decide⟩
    have r := r.snoc ⟨@Step.alloc _ _ _ 6144 0x7e0000000000 ⟨by decide, by decide, fun _ =>
      ⟨by decide, by decide, by decide⟩⟩, fun _ _ h => by cases h; decide⟩
    have r := r.snoc ⟨@Step.alloc _ _ _ 2048 0x7e0000000000 ⟨by decide, by decide, fun _ =>
      ⟨by decide, by decide, by decide⟩⟩, fun _ _ h => by cases h; decide⟩
    have r := r.snoc ⟨@Step.dealloc _ _ _ (0x7f0003fff800, 2048) (by decide), nofun⟩
    exact meta_safe_iff ⟨_, _, .mapped _, r⟩
      ⟨by decide, by decide, fun _ => ⟨by decide, by decide, by decide⟩⟩
  · have hstart : Starts fixedSizes .fixedHeap ⟨fun _ => 0,
        ⟨⟨0xffff800000100000, 0xffff8000001002e0⟩, 0⟩, [(0xffff800000100000, 0x2e0)], []⟩ :=
      .fixedHeap _ 0xffff800000100000 0xffff800000132000 4096
        ⟨0xffff800000100000, 0xffff8000001002e0⟩ (by decide) (by decide) (by decide) (by decide)
        (by decide)
    have r := Transition.Run.single (show FittingStep .fixedHeap fixedSizes _ (.alloc 320 0) inSlack
      from ⟨.alloc ⟨by decide, by decide, fun h => Build.noConfusion h⟩,
        fun _ _ h => by cases h; decide⟩)
    exact meta_safe_iff ⟨_, _, hstart, r⟩ ⟨by decide, by decide, fun h => Build.noConfusion h⟩

/-- A zone that needs three units is cut off a region with one unit left, and the heads of the
free lists are cut off the slack that a fixed heap of 60 pages leaves. -/
theorem meta_not_always_safe :
    (∃ s size start,
      Transition.Reachable (Starts mappedSizes .mapped) (Step .mapped mappedSizes) s ∧
        Callable s .mapped size start ∧ ¬Safe s .mapped mappedSizes size start) ∧
    ∃ s size start, Starts fixedSizes .fixedHeap s ∧ Callable s .fixedHeap size start ∧
      ¬Safe s .fixedHeap fixedSizes size start := by
  have hmaps : Maps [] 0x7f0000000000 :=
    ⟨by decide, by decide, fun r hr => absurd hr List.not_mem_nil⟩
  constructor
  · let s₀ : State := ⟨fun _ => 0, MetaBumpAlloc.new, [], []⟩
    have hstart : Starts mappedSizes .mapped s₀ := .mapped _
    have hcall : Callable s₀ .mapped 0x3fff800 0x7f0000000000 :=
      ⟨by decide, by decide, fun _ => hmaps⟩
    have hnext : Callable (s₀.alloc .mapped mappedSizes 0x3fff800 0x7f0000000000) .mapped 6144
        0x7e0000000000 :=
      ⟨by decide, by decide, fun _ => ⟨by decide, by decide, by decide⟩⟩
    exact ⟨_, _, _, ⟨_, _, hstart, .single (.alloc hcall)⟩, hnext,
      not_safe hnext (fun _ => by decide) (by decide)⟩
  · let s₀ : State := ⟨fun _ => 0, ⟨⟨0x100000, 0x100100⟩, 0⟩, [(0x100000, 0x100)], []⟩
    have hstart : Starts fixedSizes .fixedHeap s₀ :=
      .fixedHeap _ 0x100000 0x13c000 4096 ⟨0x100000, 0x100100⟩ (by decide) (by decide) (by decide)
        (by decide) (by decide)
    have hcall : Callable s₀ .fixedHeap 512 0 :=
      ⟨by decide, by decide, fun h => Build.noConfusion h⟩
    exact ⟨_, _, _, hstart, hcall, not_safe hcall (fun hb => Build.noConfusion hb) (by decide)⟩

end UniAlloc.MetaBump
