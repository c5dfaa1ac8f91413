import UniAlloc.Buddy.Lowest
import UniAlloc.Slab.Basic

/-!
# Layouts

`BuddySystem` turns the size of a layout into an order of its tree. The alignment is
carried along but does not reach the tree, so a block has the alignment of the heap
and of its own size only.
-/

namespace UniAlloc.Buddy

open Slab (nextPowerOfTwo isPowerOfTwo)
open Transition

def PAGE_SIZE : Nat := 0x1000

/-- A `Layout`. The size rounded up to the alignment is at most `usize::MAX`. -/
structure Layout where
  size : Nat
  align : Nat
  pow : isPowerOfTwo align
  fits : size ≤ USIZE_MAX - (align - 1)

/-- `Layout::from_size_align`. -/
def Layout.fromSizeAlign (size align : Nat) : Option Layout :=
  if h : isPowerOfTwo align ∧ size ≤ USIZE_MAX - (align - 1) then some ⟨size, align, h.1, h.2⟩
  else none

/-- `usize::leading_zeros`. -/
def leadingZeros (n : Nat) : Nat := if n = 0 then 64 else 63 - n.log2

def log2 (n : Nat) : Nat := 64 - leadingZeros (nextPowerOfTwo n) - 1

def nextPageSize (heapSize : Nat) : Nat :=
  if heapSize % PAGE_SIZE = 0 then heapSize
  else heapSize + PAGE_SIZE - 1 &&& 2 ^ 64 - PAGE_SIZE

/-- An order is a byte. -/
def orderChecked (BASE_ORDER val : Nat) : Option Nat :=
  if val = 0 then some 0
  else if 2 ^ 8 - 1 < log2 val then none
  else if BASE_ORDER ≤ log2 val then some (log2 val - BASE_ORDER)
  else some 0

/-- A tree and the heap it manages, which is a region of the address space. -/
structure BuddySystem (BASE_ORDER MAX_ORDER : Nat) where
  heapStart : Nat
  tree : BuddyTree BASE_ORDER MAX_ORDER
  pos : 0 < heapStart
  bound : heapStart + 2 ^ (BASE_ORDER + MAX_ORDER) ≤ 2 ^ 64

namespace BuddySystem

variable {BASE_ORDER MAX_ORDER : Nat}

def heapSize (BASE_ORDER MAX_ORDER : Nat) : Nat := 2 ^ (BASE_ORDER + MAX_ORDER)

/-- Returns the pointer, which is null when there is no memory. A panic is `none`. -/
def alloc (self : BuddySystem BASE_ORDER MAX_ORDER) (layout : Layout) :
    Option (Nat × BuddySystem BASE_ORDER MAX_ORDER) :=
  if ISIZE_MAX < layout.size then some (0, self)
  else do
    let layout ← Layout.fromSizeAlign (nextPageSize layout.size) layout.align
    match orderChecked BASE_ORDER layout.size with
    | none => some (0, self)
    | some order =>
        match self.tree.allocate order with
        | (none, tree) => some (0, { self with tree })
        | (some ptr, tree) =>
            if layout.size < 2 ^ 64 - 1 then some (ptr + self.heapStart, { self with tree })
            else none

def dealloc (self : BuddySystem BASE_ORDER MAX_ORDER) (ptr : Nat) (layout : Layout) :
    Option (BuddySystem BASE_ORDER MAX_ORDER) :=
  if ptr = 0 ∨ ISIZE_MAX < layout.size then some self
  else do
    let layout ← Layout.fromSizeAlign (nextPageSize layout.size) layout.align
    if self.heapStart ≤ ptr ∧ ptr < self.heapStart + heapSize BASE_ORDER MAX_ORDER then do
      let order ← orderChecked BASE_ORDER layout.size
      some { self with tree := self.tree.deallocate (ptr - self.heapStart) order }
    else none

end BuddySystem

/-- The order that `alloc` and `dealloc` compute from a layout. -/
def Layout.order (BASE_ORDER : Nat) (layout : Layout) : Nat :=
  (orderChecked BASE_ORDER (nextPageSize layout.size)).getD 0

/-- A heap and the blocks that are out, each with its offset in the heap and its order. -/
structure HeapState (BASE_ORDER MAX_ORDER : Nat) where
  heap : BuddySystem BASE_ORDER MAX_ORDER
  live : Finset (Nat × Nat)

/-- The tree in use. -/
def HeapState.state {BASE_ORDER MAX_ORDER : Nat} (s : HeapState BASE_ORDER MAX_ORDER) :
    State BASE_ORDER MAX_ORDER := ⟨s.heap.tree, s.live⟩

inductive HeapMove where
  | alloc (layout : Layout)
  | dealloc (ptr : Nat) (layout : Layout)

/-- A call that returns. A block is given back with a layout of its order that `alloc` does not
turn down. -/
inductive HeapStep {BASE_ORDER MAX_ORDER : Nat} :
    HeapState BASE_ORDER MAX_ORDER → HeapMove → HeapState BASE_ORDER MAX_ORDER → Prop where
  | served {s layout ptr heap} : s.heap.alloc layout = some (ptr, heap) → ptr ≠ 0 →
      HeapStep s (.alloc layout)
        ⟨heap, insert (ptr - s.heap.heapStart, layout.order BASE_ORDER) s.live⟩
  | refused {s layout heap} : s.heap.alloc layout = some (0, heap) →
      HeapStep s (.alloc layout) ⟨heap, s.live⟩
  | freed {s ptr layout heap} : s.heap.dealloc ptr layout = some heap →
      layout.size ≤ ISIZE_MAX →
      s.heap.heapStart ≤ ptr → (ptr - s.heap.heapStart, layout.order BASE_ORDER) ∈ s.live →
      HeapStep s (.dealloc ptr layout)
        ⟨heap, s.live.erase (ptr - s.heap.heapStart, layout.order BASE_ORDER)⟩

/-- A heap at an address whose tree is new. -/
def StartsAt (heapStart : Nat) (s : HeapState 12 22) : Prop :=
  s.heap.heapStart = heapStart ∧ s.live = ∅ ∧ ∃ flatBlocks, s.heap.tree = BuddyTree.new flatBlocks

/-- What is expected of a heap that is asked for a layout. -/
structure Handles (s : HeapState 12 22) (layout : Layout) : Prop where
  /-- The call does not panic. -/
  returns : s.heap.alloc layout ≠ none
  /-- A block lies in the heap, has room for the layout and is aligned, and the call that gives
  it back finds it again. -/
  block : ∀ ptr heap, s.heap.alloc layout = some (ptr, heap) → ptr ≠ 0 → ∃ order a,
    s.heap.tree.allocate order = (some a, heap.tree) ∧ s.state.FreeRange order a ∧
    ptr = s.heap.heapStart + a ∧ layout.size ≤ 2 ^ (12 + order) ∧ layout.align ∣ ptr ∧
    ∀ tree, ({ heap with tree } : BuddySystem 12 22).dealloc ptr layout =
      some { heap with tree := tree.deallocate a order }
  /-- When no block has room, the answer is null and the tree is unchanged. -/
  null : (∀ d a, layout.size ≤ 2 ^ (12 + d) → ¬s.state.FreeRange d a) →
    s.heap.alloc layout = some (0, s.heap)

theorem nextPowerOfTwo_spec (n : Nat) :
    ∃ e, nextPowerOfTwo n = 2 ^ e ∧ n ≤ 2 ^ e ∧ ∀ k, n ≤ 2 ^ k → e ≤ k := by
  rw [nextPowerOfTwo]
  split
  · next h => exact ⟨0, rfl, h, fun k _ => Nat.zero_le k⟩
  · next h =>
      have hle := Nat.log2_self_le (n := n - 1) (by omega)
      have hlt := Nat.lt_log2_self (n := n - 1)
      refine ⟨(n - 1).log2 + 1, rfl, by omega, fun k hk => ?_⟩
      apply Nat.succ_le_of_lt
      apply (Nat.pow_lt_pow_iff_right Nat.one_lt_two).mp
      omega

theorem log2_of_nextPowerOfTwo {n e : Nat} (h : nextPowerOfTwo n = 2 ^ e) (he : e ≤ 63) :
    log2 n = e := by
  rw [log2, h, leadingZeros, if_neg (Nat.two_pow_pos e).ne', Nat.log2_two_pow]
  omega

/-- A size is rounded up to whole pages, and wraps around in the last page. -/
theorem nextPageSize_mod {size : Nat} (h : size ≤ USIZE_MAX) :
    nextPageSize size = (size + 4095) / 4096 * 4096 % 2 ^ 64 := by
  rw [USIZE_MAX] at h
  rw [nextPageSize, PAGE_SIZE]
  split
  · omega
  · have hmask := Nat.and_mod_two_pow (a := size + 4096 - 1) (b := 2 ^ 64 - 4096) (n := 64)
    have hle := Nat.and_le_right (n := size + 4096 - 1) (m := 2 ^ 64 - 4096)
    have hclear := and_clear_low (n := (size + 4096 - 1) % 2 ^ 64) (k := 12) (by omega) (by omega)
    rw [Nat.mod_eq_of_lt (by omega : (size + 4096 - 1 &&& 2 ^ 64 - 4096) < 2 ^ 64),
      Nat.mod_eq_of_lt (by omega : 2 ^ 64 - 4096 < 2 ^ 64)] at hmask
    calc size + 4096 - 1 &&& 2 ^ 64 - 4096
        = (size + 4096 - 1) % 2 ^ 64 / 2 ^ 12 * 2 ^ 12 := hmask.trans hclear
      _ = (size + 4095) / 4096 * 4096 % 2 ^ 64 := by omega

theorem nextPageSize_eq {size : Nat} (h : size ≤ ISIZE_MAX) :
    nextPageSize size = (size + 4095) / 4096 * 4096 := by
  rw [ISIZE_MAX] at h
  have hle : size ≤ USIZE_MAX := by
    rw [USIZE_MAX]
    omega
  rw [nextPageSize_mod hle]
  omega

/-- The order is the least that has room for the size. -/
theorem orderChecked_spec {size : Nat} (hpos : 1 ≤ size) (hle : size ≤ ISIZE_MAX) :
    ∃ order, orderChecked 12 (nextPageSize size) = some order ∧
      ∀ d, size ≤ 2 ^ (12 + d) ↔ order ≤ d := by
  have hround := nextPageSize_eq hle
  rw [ISIZE_MAX] at hle
  obtain ⟨e, he, hlarge, hleast⟩ := nextPowerOfTwo_spec (nextPageSize size)
  have hpage : ∀ k, 12 ≤ k → (nextPageSize size ≤ 2 ^ k ↔ size ≤ 2 ^ k) := by
    intro k hk
    obtain ⟨m, hm⟩ : 2 ^ 12 ∣ 2 ^ k := Nat.pow_dvd_pow 2 hk
    rw [hm, hround]
    omega
  have h63 : e ≤ 63 := hleast 63 ((hpage 63 (by omega)).mpr (by omega))
  have h12 : 12 ≤ e := by
    by_contra hlt
    have := Nat.pow_le_pow_right (n := 2) (by omega) (show e ≤ 11 by omega)
    omega
  refine ⟨e - 12, ?_, fun d => ?_⟩
  · rw [orderChecked, log2_of_nextPowerOfTwo he h63, if_neg (by omega), if_neg (by omega),
      if_pos h12]
  · rw [← hpage (12 + d) (by omega)]
    constructor
    · intro hd
      have := hleast _ hd
      omega
    · intro hd
      exact hlarge.trans (Nat.pow_le_pow_right (by omega) (by omega))

namespace Layout

variable (layout : Layout)

theorem align_eq : layout.align = 2 ^ layout.align.log2 := by
  have := layout.pow
  simp only [isPowerOfTwo, decide_eq_true_eq] at this
  exact this.symm

variable {layout}

theorem orderChecked_eq (hsize : layout.size ≤ ISIZE_MAX) :
    orderChecked 12 (nextPageSize layout.size) = some (layout.order 12) := by
  obtain hzero | hpos := Nat.eq_zero_or_pos layout.size
  · rw [Layout.order, hzero]
    rfl
  · obtain ⟨order, horder, -⟩ := orderChecked_spec hpos hsize
    rw [Layout.order, horder]
    rfl

theorem size_le_iff (hpos : 1 ≤ layout.size) (hsize : layout.size ≤ ISIZE_MAX) {d : Nat} :
    layout.size ≤ 2 ^ (12 + d) ↔ layout.order 12 ≤ d := by
  obtain ⟨order, horder, hleast⟩ := orderChecked_spec hpos hsize
  rw [Layout.order, horder]
  exact hleast d

/-- The size rounded up to whole pages is at most `2 ^ 63`, and so is every alignment. -/
theorem fromSizeAlign_eq (hsize : layout.size ≤ ISIZE_MAX) :
    ∃ rounded : Layout, rounded.size = nextPageSize layout.size ∧
      fromSizeAlign (nextPageSize layout.size) layout.align = some rounded := by
  have hround := nextPageSize_eq hsize
  have hle : nextPageSize layout.size ≤ USIZE_MAX - (layout.align - 1) := by
    obtain hzero | hpos := Nat.eq_zero_or_pos layout.size
    · rw [hzero]
      exact Nat.zero_le _
    · have hfits := layout.fits
      have halign : layout.align ≤ 2 ^ 63 := by
        rw [layout.align_eq] at hfits ⊢
        have hlt : 2 ^ layout.align.log2 < 2 ^ 64 := by
          rw [USIZE_MAX] at hfits
          omega
        have := (Nat.pow_lt_pow_iff_right Nat.one_lt_two).mp hlt
        exact Nat.pow_le_pow_right (by omega) (by omega)
      rw [ISIZE_MAX] at hsize
      rw [USIZE_MAX]
      omega
  exact ⟨⟨_, _, layout.pow, hle⟩, rfl, dif_pos ⟨layout.pow, hle⟩⟩

end Layout

namespace BuddySystem

variable {layout : Layout} (self : BuddySystem 12 22)

theorem alloc_eq (hsize : layout.size ≤ ISIZE_MAX) :
    self.alloc layout = some (match self.tree.allocate (layout.order 12) with
      | (none, tree) => (0, { self with tree })
      | (some ptr, tree) => (ptr + self.heapStart, { self with tree })) := by
  obtain ⟨rounded, hrounded, hcall⟩ := Layout.fromSizeAlign_eq hsize
  have hround := nextPageSize_eq hsize
  rw [alloc, if_neg (Nat.not_lt.mpr hsize), hcall, Option.bind_eq_bind, Option.bind_some]
  simp only [hrounded, Layout.orderChecked_eq hsize]
  rw [ISIZE_MAX] at hsize
  split
  · next h => rw [h]
  · next h => rw [h, if_pos (by omega)]

theorem alloc_large (hsize : ISIZE_MAX < layout.size) : self.alloc layout = some (0, self) :=
  if_pos hsize

/-- No call for memory panics. -/
theorem alloc_returns (layout : Layout) : ∃ x, self.alloc layout = some x := by
  obtain hsize | hsize := Nat.lt_or_ge ISIZE_MAX layout.size
  · exact ⟨_, self.alloc_large hsize⟩
  · exact ⟨_, self.alloc_eq hsize⟩

theorem dealloc_eq {a : Nat} (hsize : layout.size ≤ ISIZE_MAX) (ha : a < 2 ^ (12 + 22)) :
    self.dealloc (self.heapStart + a) layout =
      some { self with tree := self.tree.deallocate a (layout.order 12) } := by
  obtain ⟨rounded, hrounded, hcall⟩ := Layout.fromSizeAlign_eq hsize
  have := self.pos
  rw [dealloc, if_neg (by omega), hcall, Option.bind_eq_bind, Option.bind_some,
    if_pos ⟨by omega, by rw [heapSize]; omega⟩, hrounded, Layout.orderChecked_eq hsize,
    Nat.add_sub_cancel_left]
  rfl

end BuddySystem

/-- A call returns a block that the tree has given, or null. -/
theorem alloc_cases {self heap : BuddySystem 12 22} {layout : Layout} {ptr : Nat}
    (hcall : self.alloc layout = some (ptr, heap)) :
    (layout.size ≤ ISIZE_MAX ∧ ∃ a, self.tree.allocate (layout.order 12) = (some a, heap.tree) ∧
        ptr = self.heapStart + a ∧ heap = { self with tree := heap.tree }) ∨
      ptr = 0 ∧ heap = { self with tree := heap.tree } ∧
        (ISIZE_MAX < layout.size ∧ heap = self ∨
          layout.size ≤ ISIZE_MAX ∧ self.tree.allocate (layout.order 12) = (none, heap.tree)) := by
  obtain hsize | hsize := Nat.lt_or_ge ISIZE_MAX layout.size
  · rw [self.alloc_large hsize] at hcall
    cases hcall
    exact .inr ⟨rfl, rfl, .inl ⟨hsize, rfl⟩⟩
  · rw [self.alloc_eq hsize, Option.some.injEq] at hcall
    split at hcall
    · next tree h =>
        cases hcall
        exact .inr ⟨rfl, rfl, .inr ⟨hsize, h⟩⟩
    · next a tree h =>
        cases hcall
        exact .inl ⟨hsize, a, h, Nat.add_comm _ _, rfl⟩

def HeapReached (heapStart : Nat) (s : HeapState 12 22) : Prop :=
  Reachable (StartsAt heapStart) HeapStep s

section

variable {s t : HeapState 12 22} {m : HeapMove} {layout : Layout} {heapStart : Nat}

/-- A call on the heap is a call on its tree, or does not reach it. -/
theorem HeapStep.refines (step : HeapStep s m t) (hs : Reached s.state) :
    ((∃ m', Step s.state m' t.state) ∨ t.state = s.state) ∧
      t.heap.heapStart = s.heap.heapStart := by
  cases step with
  | @served layout ptr heap hcall hptr =>
      obtain ⟨-, a, hrun, rfl, hheap⟩ | ⟨hnull, -⟩ := alloc_cases hcall
      · refine ⟨.inl ⟨.allocate (layout.order 12), ?_⟩, (congrArg BuddySystem.heapStart hheap :)⟩
        rw [Nat.add_sub_cancel_left]
        exact .allocated hrun
      · exact absurd hnull hptr
  | refused hcall =>
      obtain ⟨-, a, -, hzero, -⟩ | ⟨-, hheap, ⟨-, rfl⟩ | ⟨-, hrun⟩⟩ := alloc_cases hcall
      · have := s.heap.pos
        omega
      · exact ⟨.inr rfl, rfl⟩
      · exact ⟨.inl ⟨_, .refused hrun⟩, (congrArg BuddySystem.heapStart hheap :)⟩
  | @freed ptr layout heap hcall hsize hle hlive =>
      obtain ⟨a, rfl⟩ := Nat.exists_eq_add_of_le hle
      rw [Nat.add_sub_cancel_left] at hlive ⊢
      have hin := hs.inv.live_le hlive
      have := Nat.two_pow_pos (12 + layout.order 12)
      rw [s.heap.dealloc_eq hsize (by simp only at hin; omega)] at hcall
      cases hcall
      exact ⟨.inl ⟨_, .deallocated hlive⟩, rfl⟩

theorem HeapReached.refines (h : HeapReached heapStart s) :
    Reached s.state ∧ s.heap.heapStart = heapStart := by
  refine h.invariant (I := fun s => Reached s.state ∧ s.heap.heapStart = heapStart) ?_ ?_
  · rintro s ⟨hstart, hlive, flatBlocks, htree⟩
    refine ⟨⟨s.state, [], ⟨flatBlocks, ?_⟩, .nil⟩, hstart⟩
    rw [HeapState.state, htree, hlive]
    rfl
  · rintro u m v ⟨hu, hstart⟩ step
    obtain ⟨⟨m', hstep⟩ | hsame, hheap⟩ := step.refines hu
    · obtain ⟨s₀, tr, hinit, run⟩ := hu
      exact ⟨⟨s₀, _, hinit, run.snoc hstep⟩, hheap.trans hstart⟩
    · exact ⟨hsame ▸ hu, hheap.trans hstart⟩

/-- The condition on a layout: if it is not larger than the heap, its alignment divides the
address of the heap and, unless the whole heap is needed, the size of the block. -/
def Layout.Suits (layout : Layout) (heapStart : Nat) : Prop :=
  2 ^ 34 < layout.size ∨ layout.align ∣ heapStart ∧
    (2 ^ 33 < layout.size ∨ layout.align ≤ 2 ^ 12 ∨ layout.align < 2 * layout.size)

/-- The alignment is at most the size of the block. -/
theorem Layout.align_dvd_iff (hpos : 1 ≤ layout.size) (hmax : layout.size ≤ ISIZE_MAX) :
    layout.align ∣ 2 ^ (12 + layout.order 12) ↔
      layout.align ≤ 2 ^ 12 ∨ layout.align < 2 * layout.size := by
  have hsize := (Layout.size_le_iff hpos hmax).mpr (le_refl (layout.order 12))
  rw [layout.align_eq, Nat.pow_dvd_pow_iff_le_right Nat.one_lt_two]
  constructor
  · intro hle
    cases ho : layout.order 12 with
    | zero =>
      left
      exact Nat.pow_le_pow_right (by omega) (by omega)
    | succ o =>
      right
      have hlt := mt (Layout.size_le_iff hpos hmax (d := o)).mp (by omega)
      have := Nat.pow_le_pow_right (n := 2) (by omega) (show layout.align.log2 ≤ 12 + o + 1 by omega)
      rw [Nat.pow_succ] at this
      omega
  · rintro (hle | hlt)
    · have := (Nat.pow_le_pow_iff_right Nat.one_lt_two).mp hle
      omega
    · have hlt : 2 ^ layout.align.log2 < 2 ^ (12 + layout.order 12 + 1) := by
        rw [Nat.pow_succ]
        omega
      have := (Nat.pow_lt_pow_iff_right Nat.one_lt_two).mp hlt
      omega

/-- A suitable layout is handled in every reachable heap. -/
theorem handles_of_suits (h : HeapReached heapStart s) (hpos : 1 ≤ layout.size)
    (hsize : layout.size ≤ ISIZE_MAX) (suits : layout.Suits heapStart) : Handles s layout := by
  obtain ⟨hs, rfl⟩ := h.refines
  obtain ⟨hnone, hsame, hsome⟩ := allocate_lowest hs (layout.order 12)
  have hfit := (Layout.size_le_iff hpos hsize).mpr (le_refl (layout.order 12))
  refine ⟨?_, fun ptr heap hcall hptr => ?_, fun hfull => ?_⟩
  · rw [s.heap.alloc_eq hsize]
    exact Option.some_ne_none _
  · obtain ⟨-, a, hrun, rfl, hheap⟩ | ⟨hnull, -⟩ := alloc_cases hcall
    · have hrange := (hsome a (congrArg Prod.fst hrun)).1
      have hin := hrange.2.1
      have := Nat.two_pow_pos (12 + layout.order 12)
      refine ⟨_, a, hrun, hrange, rfl, hfit, ?_, fun tree => ?_⟩
      · obtain hlarge | ⟨halign, hsuits⟩ := suits
        · have hle : 2 ^ (12 + layout.order 12) ≤ 2 ^ (12 + 22) := by omega
          have := (Nat.pow_le_pow_iff_right Nat.one_lt_two).mp hle
          have := (Layout.size_le_iff hpos hsize (d := 22)).mpr (by omega)
          omega
        · apply Nat.dvd_add halign
          obtain hwhole | hsmall := hsuits
          · have hle := mt (Layout.size_le_iff hpos hsize (d := 21)).mpr (by omega)
            have := Nat.pow_le_pow_right (n := 2) (by omega)
              (show 12 + 22 ≤ 12 + layout.order 12 by omega)
            obtain rfl : a = 0 := by omega
            exact Nat.dvd_zero _
          · exact ((Layout.align_dvd_iff hpos hsize).mpr hsmall).trans hrange.1
      · have hcall := BuddySystem.dealloc_eq { heap with tree } hsize (a := a) (by omega)
        have hstart : heap.heapStart = s.heap.heapStart :=
          (congrArg BuddySystem.heapStart hheap :)
        rw [← hstart]
        exact hcall
    · exact absurd hnull hptr
  · have hnull := hnone.mpr fun a => hfull _ a hfit
    have hrun : s.heap.tree.allocate (layout.order 12) = (none, s.heap.tree) :=
      Prod.ext hnull (hsame hnull)
    rw [s.heap.alloc_eq hsize, hrun]

/-- A new heap at an address. -/
def newHeap (heapStart : Nat) (pos : 0 < heapStart) (bound : heapStart + 2 ^ (12 + 22) ≤ 2 ^ 64) :
    HeapState 12 22 :=
  ⟨⟨heapStart, BuddyTree.new fun _ => ⟨0⟩, pos, bound⟩, ∅⟩

theorem newHeap_reached (pos : 0 < heapStart) (bound : heapStart + 2 ^ (12 + 22) ≤ 2 ^ 64) :
    HeapReached heapStart (newHeap heapStart pos bound) :=
  ⟨_, [], ⟨rfl, rfl, _, rfl⟩, .nil⟩

/-- Two blocks of a layout from a new heap: the first is at its start, the second, if there is
one, behind the first. -/
theorem two_blocks (pos : 0 < heapStart) (bound : heapStart + 2 ^ (12 + 22) ≤ 2 ^ 64)
    (hpos : 1 ≤ layout.size) (hsize : layout.size ≤ 2 ^ 34) :
    (∃ heap, (newHeap heapStart pos bound).heap.alloc layout = some (heapStart, heap)) ∧
      (layout.size ≤ 2 ^ 33 → ∃ s, HeapReached heapStart s ∧
        ∃ heap, s.heap.alloc layout =
          some (heapStart + 2 ^ (12 + layout.order 12), heap)) := by
  have hmax : layout.size ≤ ISIZE_MAX := by
    rw [ISIZE_MAX]
    omega
  have horder := (Layout.size_le_iff hpos hmax (d := 22)).mp (by omega)
  have hpow := Nat.pow_le_pow_right (n := 2) (by omega)
    (show 12 + layout.order 12 ≤ 12 + 22 by omega)
  have serve : ∀ s : HeapState 12 22, HeapReached heapStart s → ∀ a,
      s.state.FreeRange (layout.order 12) a →
      (∀ x, s.state.FreeRange (layout.order 12) x → a ≤ x) →
      ∃ tree, s.heap.tree.allocate (layout.order 12) = (some a, tree) ∧
        s.heap.alloc layout = some (heapStart + a, { s.heap with tree }) := by
    intro s h a hrange hleast
    obtain ⟨hs, rfl⟩ := h.refines
    obtain ⟨hnone, -, hsome⟩ := allocate_lowest hs (layout.order 12)
    obtain ⟨ptr, hptr⟩ : ∃ ptr, (s.heap.tree.allocate (layout.order 12)).1 = some ptr := by
      apply Option.ne_none_iff_exists'.mp
      intro hcall
      exact hnone.mp hcall a hrange
    obtain ⟨hin, hle⟩ := hsome ptr hptr
    obtain rfl := Nat.le_antisymm (hleast ptr hin) (hle hrange)
    have hrun : s.heap.tree.allocate (layout.order 12) =
        (some a, (s.heap.tree.allocate (layout.order 12)).2) := Prod.ext hptr rfl
    refine ⟨_, hrun, ?_⟩
    rw [s.heap.alloc_eq hmax, hrun, Nat.add_comm]
  have hreached := newHeap_reached pos bound
  obtain ⟨tree, hrun, hcall⟩ := serve _ hreached 0
    ⟨Nat.dvd_zero _, by omega, fun p hp => absurd hp (Finset.notMem_empty p)⟩
    (fun x _ => Nat.zero_le x)
  refine ⟨⟨_, hcall⟩, fun hhalf => ?_⟩
  have horder' := (Layout.size_le_iff hpos hmax (d := 21)).mp (by omega)
  have hpow' := Nat.pow_le_pow_right (n := 2) (by omega)
    (show 12 + layout.order 12 + 1 ≤ 12 + 22 by omega)
  rw [Nat.pow_succ] at hpow'
  obtain ⟨s₀, tr, hinit, run⟩ := hreached
  have hreached' : HeapReached heapStart _ :=
    ⟨s₀, _, hinit, run.snoc (.served hcall (Nat.add_pos_left pos 0).ne')⟩
  have hlive : ∀ p, p ∈ insert (heapStart + 0 - (newHeap heapStart pos bound).heap.heapStart,
      layout.order 12) (newHeap heapStart pos bound).live ↔ p = (0, layout.order 12) := by
    intro p
    rw [show heapStart + 0 - (newHeap heapStart pos bound).heap.heapStart = 0 from Nat.sub_self _]
    simp [newHeap]
  obtain ⟨tree', -, hcall'⟩ := serve _ hreached' (2 ^ (12 + layout.order 12))
    ⟨dvd_rfl, by omega, fun p hp => .inr (by rw [(hlive p).mp hp]; simp)⟩ (fun x hx => by
      have := Nat.two_pow_pos (12 + layout.order 12)
      obtain hend | hle := hx.2.2 (0, layout.order 12) ((hlive _).mpr rfl)
      · omega
      · rwa [Nat.zero_add] at hle)
  exact ⟨_, hreached', _, hcall'⟩

/-- A layout is handled in every reachable heap at an address if and only if it suits that
address. -/
theorem handles_iff (pos : 0 < heapStart) (bound : heapStart + 2 ^ (12 + 22) ≤ 2 ^ 64)
    (hpos : 1 ≤ layout.size) (hsize : layout.size ≤ ISIZE_MAX) :
    (∀ s, HeapReached heapStart s → Handles s layout) ↔ layout.Suits heapStart := by
  constructor
  · intro handles
    by_contra hnot
    rw [Layout.Suits] at hnot
    obtain ⟨⟨heap, hfirst⟩, hsecond⟩ := two_blocks pos bound hpos (by omega)
    have halign : layout.align ∣ heapStart := by
      obtain ⟨-, -, -, -, -, -, halign, -⟩ :=
        (handles _ (newHeap_reached pos bound)).block _ _ hfirst pos.ne'
      exact halign
    obtain ⟨s, hs, heap', hcall⟩ := hsecond (by omega)
    obtain ⟨-, -, -, -, -, -, halign', -⟩ :=
      (handles s hs).block _ _ hcall (Nat.add_pos_left pos _).ne'
    have := (Layout.align_dvd_iff hpos hsize).mp ((Nat.dvd_add_right halign).mp halign')
    omega
  · intro suits s hs
    exact handles_of_suits hs hpos hsize suits

/-- The layout of a page is handled. -/
theorem handles_iff_page : Layout.Suits ⟨4096, 8, by decide, by decide⟩ 0x7f0000000000 ∧
    ∀ s, HeapReached 0x7f0000000000 s → Handles s ⟨4096, 8, by decide, by decide⟩ := by
  have suits : Layout.Suits ⟨4096, 8, by decide, by decide⟩ 0x7f0000000000 :=
    .inr ⟨by decide, .inr (.inl (by decide))⟩
  exact ⟨suits, (handles_iff (by decide) (by decide) (by decide) (by decide)).mpr suits⟩

/-- The second block of one byte with the alignment of two pages is aligned to one page only. -/
theorem layouts_not_handled : ∃ s, HeapReached 0x7f0000000000 s ∧ ∃ heap,
    s.heap.alloc ⟨1, 8192, by decide, by decide⟩ = some (0x7f0000001000, heap) ∧
      ¬8192 ∣ 0x7f0000001000 := by
  let layout : Layout := ⟨1, 8192, by decide, by decide⟩
  have horder : layout.order 12 = 0 := by decide
  obtain ⟨s, hs, heap, hcall⟩ := (two_blocks
    (by decide : 0 < 0x7f0000000000) (by decide) (by decide : 1 ≤ layout.size) (by decide)).2
    (by decide)
  rw [horder] at hcall
  exact ⟨s, hs, heap, hcall, by decide⟩

end

end UniAlloc.Buddy
