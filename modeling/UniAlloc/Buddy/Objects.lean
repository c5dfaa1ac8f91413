import UniAlloc.Buddy.Heap
import UniAlloc.Cache.Realloc
import UniAlloc.Store.Basic

/-!
# The buddy heap as a store

`BuddySystem` together with the memory behind it. A block that is reallocated stays where it is
as long as it needs the same pages, and is copied to another one otherwise.
-/

namespace UniAlloc.Buddy

open Transition
open Cache (copyNonoverlapping copyNonoverlapping_of_lt)
open Store (Event)

deriving instance DecidableEq for Layout

/-- `BuddySystem::realloc`. `from_size_align_unchecked` makes `newLayout` of the new size. -/
def BuddySystem.realloc {BASE_ORDER MAX_ORDER : Nat} (self : BuddySystem BASE_ORDER MAX_ORDER)
    (mem : Mem) (ptr : Nat) (layout newLayout : Layout) :
    Option (Nat × BuddySystem BASE_ORDER MAX_ORDER × Mem) :=
  if nextPageSize layout.size = nextPageSize newLayout.size then some (ptr, self, mem)
  else do
    let (newPtr, self) ← self.alloc newLayout
    if newPtr ≠ 0 then do
      let mem := copyNonoverlapping mem ptr newPtr (min layout.size newLayout.size)
      let self ← self.dealloc ptr layout
      some (newPtr, self, mem)
    else some (newPtr, self, mem)

/-- A block that the program uses. -/
structure Object where
  ptr : Nat
  layout : Layout
  deriving DecidableEq

/-- The bytes of an object. -/
def shape : Store.Shape Object Nat where
  size o := o.layout.size
  addr o i := o.ptr + i

/-- The bytes of its block. -/
def room : Store.Shape Object Nat where
  size o := 2 ^ (12 + o.layout.order 12)
  addr o i := o.ptr + i

/-- A heap with its memory, and the objects in use. -/
structure HeapUse where
  heap : BuddySystem 12 22
  objs : Multiset Object
  mem : Mem

inductive UseMove where
  | alloc (layout : Layout)
  | dealloc (o : Object)
  | store (o : Object) (offset v : Nat)
  | realloc (o : Object) (newLayout : Layout)

namespace HeapUse

variable (u : HeapUse)

/-- Layouts are not empty, and keep their alignment. -/
def Enabled : UseMove → Prop
  | .alloc layout => 1 ≤ layout.size
  | .dealloc o => o ∈ u.objs
  | .store o offset _ => o ∈ u.objs ∧ offset < o.layout.size
  | .realloc o newLayout =>
      o ∈ u.objs ∧ 1 ≤ newLayout.size ∧ newLayout.align = o.layout.align

def exec : UseMove → Option HeapUse
  | .alloc layout => do
      let (ptr, heap) ← u.heap.alloc layout
      some { u with heap, objs := if ptr = 0 then u.objs else ⟨ptr, layout⟩ ::ₘ u.objs }
  | .dealloc o => do
      let heap ← u.heap.dealloc o.ptr o.layout
      some { u with heap, objs := u.objs.erase o }
  | .store o offset v => some { u with mem := Function.update u.mem (o.ptr + offset) v }
  | .realloc o newLayout => do
      let (ptr, heap, mem) ← u.heap.realloc u.mem o.ptr o.layout newLayout
      some ⟨heap, if ptr = 0 then u.objs else ⟨ptr, newLayout⟩ ::ₘ u.objs.erase o, mem⟩

/-- What the program sees of the heap. -/
def view : Store.State Object Nat Nat := ⟨u.objs, u.mem⟩

end HeapUse

/-- A call that returns, or a write. -/
def UseStep (u : HeapUse) (m : UseMove) (v : HeapUse) : Prop := u.Enabled m ∧ u.exec m = some v

/-- The block lies in the heap, aligned to its size. -/
structure Object.Fits (heapStart : Nat) (o : Object) : Prop where
  start : heapStart ≤ o.ptr
  stop : o.ptr + 2 ^ (12 + o.layout.order 12) ≤ heapStart + 2 ^ (12 + 22)
  size : o.layout.size ≤ 2 ^ (12 + o.layout.order 12)
  aligned : 2 ^ (12 + o.layout.order 12) ∣ o.ptr - heapStart

namespace HeapUse

variable (u : HeapUse)

/-- Somewhere in the heap there is an aligned block for the layout, apart from the blocks of all
objects. -/
def Vacant (layout : Layout) : Prop :=
  ∃ ptr, Object.Fits u.heap.heapStart ⟨ptr, layout⟩ ∧ ∀ o ∈ u.objs, room.Apart ⟨ptr, layout⟩ o

/-- The events that a move can stand for. A request that cannot be served leaves everything as
it is. -/
def Answers : UseMove → Event Object Nat → Prop
  | .alloc layout, e => (∃ ptr, e = .alloc ⟨ptr, layout⟩) ∨ e = .silent ∧ ¬u.Vacant layout
  | .dealloc o, e => e = .free o
  | .store o offset v, e => e = .write o offset v
  | .realloc o newLayout, e =>
      (∃ ptr, e = .resize o ⟨ptr, newLayout⟩) ∨
        e = .silent ∧ nextPageSize o.layout.size ≠ nextPageSize newLayout.size ∧
          ¬u.Vacant newLayout

end HeapUse

/-- The block of an object, as the tree knows it. -/
def Object.block (heapStart : Nat) (o : Object) : Nat × Nat :=
  (o.ptr - heapStart, o.layout.order 12)

/-- The objects are the live blocks of a heap that has been reached. -/
structure UseOk (heapStart : Nat) (heap : BuddySystem 12 22) (objs : Multiset Object) : Prop where
  live : ∃ live, HeapReached heapStart ⟨heap, live⟩ ∧
    live.val = objs.map (Object.block heapStart)
  fits : ∀ o ∈ objs, o.Fits heapStart
  sizes : ∀ o ∈ objs, 1 ≤ o.layout.size ∧ o.layout.size ≤ ISIZE_MAX
  separate : Store.Separate room objs

section

variable {heapStart ptr : Nat} {heap heap' : BuddySystem 12 22} {objs : Multiset Object}
  {o c : Object} {layout newLayout : Layout}

theorem Object.Fits.room_of_shape (fits : o.Fits heapStart) {a : Nat} (ha : shape.Cell o a) :
    room.Cell o a := by
  obtain ⟨i, hi, rfl⟩ := ha
  exact ⟨i, lt_of_lt_of_le hi fits.size, rfl⟩

theorem room_cell {a : Nat} :
    room.Cell o a ↔ o.ptr ≤ a ∧ a < o.ptr + 2 ^ (12 + o.layout.order 12) :=
  Store.Shape.cell_iff_of_contiguous Object.ptr fun _ _ => rfl

theorem shape_cell {a : Nat} : shape.Cell o a ↔ o.ptr ≤ a ∧ a < o.ptr + o.layout.size :=
  Store.Shape.cell_iff_of_contiguous Object.ptr fun _ _ => rfl

namespace UseOk

theorem shape_apart (fits : o.Fits heapStart) (fits' : c.Fits heapStart) (apart : room.Apart o c) :
    shape.Apart o c :=
  fun a ha ha' => apart a (fits.room_of_shape ha) (fits'.room_of_shape ha')

/-- The objects are apart, since their blocks are. -/
theorem shapes_separate (ok : UseOk heapStart heap objs) : Store.Separate shape objs :=
  fun o ho c hc =>
    shape_apart (ok.fits o ho) (ok.fits c (Multiset.mem_of_mem_erase hc)) (ok.separate o ho c hc)

theorem start_eq (ok : UseOk heapStart heap objs) : heap.heapStart = heapStart := by
  obtain ⟨live, reached, -⟩ := ok.live
  exact reached.refines.2

/-- What `alloc` returns is a block of its own, and becomes an object. -/
theorem alloc (ok : UseOk heapStart heap objs) (hpos : 1 ≤ layout.size)
    (hcall : heap.alloc layout = some (ptr, heap')) (hptr : ptr ≠ 0) :
    UseOk heapStart heap' (⟨ptr, layout⟩ ::ₘ objs) := by
  obtain ⟨live, reached, hlive⟩ := ok.live
  obtain ⟨hs, rfl⟩ := reached.refines
  obtain ⟨hsize, a, hrun, rfl, -⟩ | ⟨hnull, -⟩ := alloc_cases hcall
  · have hrange := ((hs.inv.allocate_spec (by omega) (layout.order 12)).2.2 a
      (congrArg Prod.fst hrun)).1
    obtain ⟨hdvd, hstop, hoff⟩ := hrange
    have hroom := Nat.two_pow_pos (12 + layout.order 12)
    have hnew : (heap.heapStart + a - heap.heapStart, layout.order 12) = (a, layout.order 12) := by
      rw [Nat.add_sub_cancel_left]
    have hout : (a, layout.order 12) ∉ live := fun h => by
      obtain h | h := hoff _ h <;> simp only at h <;> omega
    have hstep : HeapStep ⟨heap, live⟩ (.alloc layout) ⟨heap',
        insert (heap.heapStart + a - heap.heapStart, layout.order 12) live⟩ := .served hcall hptr
    rw [hnew] at hstep
    obtain ⟨s₀, tr, hinit, run⟩ := reached
    constructor
    case live =>
      refine ⟨insert (a, layout.order 12) live, ⟨s₀, _, hinit, run.snoc hstep⟩, ?_⟩
      rw [Finset.insert_val_of_notMem hout, Multiset.map_cons, hlive, Object.block, hnew]
    case fits =>
      refine Multiset.forall_mem_cons.mpr ⟨⟨Nat.le_add_right _ _, ?_, ?_, ?_⟩, ok.fits⟩
      · simp only at hstop ⊢
        omega
      · exact (Layout.size_le_iff hpos hsize).mpr le_rfl
      · rwa [Nat.add_sub_cancel_left]
    case sizes => exact Multiset.forall_mem_cons.mpr ⟨⟨hpos, hsize⟩, ok.sizes⟩
    case separate =>
      refine ok.separate.cons fun c hc x hx hx' => ?_
      have hmem : c.block heap.heapStart ∈ live := by
        rw [← Finset.mem_val, hlive]
        exact Multiset.mem_map_of_mem _ hc
      have hstart := (ok.fits c hc).start
      obtain ⟨hle, hlt⟩ := room_cell.mp hx
      obtain ⟨hle', hlt'⟩ := room_cell.mp hx'
      obtain h | h := hoff _ hmem
      · simp only [Object.block] at h hle hlt hle' hlt'
        omega
      · simp only [Object.block] at h hle hlt hle' hlt'
        omega
  · exact absurd hnull hptr

/-- A request that is refused leaves the objects in place. -/
theorem refused (ok : UseOk heapStart heap objs) (hcall : heap.alloc layout = some (0, heap')) :
    UseOk heapStart heap' objs := by
  obtain ⟨live, ⟨s₀, tr, hinit, run⟩, hlive⟩ := ok.live
  exact ⟨⟨live, ⟨s₀, _, hinit, run.snoc (.refused hcall)⟩, hlive⟩, ok.fits, ok.sizes, ok.separate⟩

/-- A request is refused only if no block is vacant. -/
theorem not_vacant (ok : UseOk heapStart heap objs) (hcall : heap.alloc layout = some (0, heap'))
    (mem : Mem) : ¬HeapUse.Vacant ⟨heap, objs, mem⟩ layout := by
  rintro ⟨ptr, hfits, apart⟩
  obtain ⟨live, reached, hlive⟩ := ok.live
  obtain ⟨hs, rfl⟩ := reached.refines
  obtain ⟨hle, hstop, hsize, hdvd⟩ := hfits
  simp only at hle hstop hsize hdvd
  have hroom := Nat.two_pow_pos (12 + layout.order 12)
  obtain ⟨-, a, -, hzero, -⟩ | ⟨-, -, ⟨hlarge, -⟩ | ⟨-, hrun⟩⟩ := alloc_cases hcall
  · have := heap.pos
    omega
  · rw [ISIZE_MAX] at hlarge
    omega
  · obtain ⟨hnone, -, -⟩ := allocate_lowest hs (layout.order 12)
    refine hnone.mp (congrArg Prod.fst hrun) (ptr - heap.heapStart) ⟨hdvd, by omega, ?_⟩
    intro p hp
    rw [HeapState.state, ← Finset.mem_val, hlive] at hp
    obtain ⟨o, ho, rfl⟩ := Multiset.mem_map.mp hp
    have hleft : heap.heapStart ≤ o.ptr := (ok.fits o ho).start
    have hroom' := Nat.two_pow_pos (12 + o.layout.order 12)
    -- two blocks that meet have the larger of their first bytes in common
    have hmeet := apart o ho (max ptr o.ptr)
    rw [room_cell, room_cell] at hmeet
    simp only [Object.block] at hmeet ⊢
    obtain hle' | hle' := Nat.le_total ptr o.ptr
    · rw [Nat.max_eq_right hle'] at hmeet
      omega
    · rw [Nat.max_eq_left hle'] at hmeet
      omega

/-- An object can be given back. -/
theorem dealloc (ok : UseOk heapStart heap objs) (ho : o ∈ objs) :
    ∃ heap', heap.dealloc o.ptr o.layout = some heap' ∧
      UseOk heapStart heap' (objs.erase o) := by
  obtain ⟨live, reached, hlive⟩ := ok.live
  obtain ⟨-, hstart⟩ := reached.refines
  obtain ⟨hle, hstop, -, -⟩ := ok.fits o ho
  obtain ⟨a, ha⟩ := Nat.exists_eq_add_of_le hle
  have hroom := Nat.two_pow_pos (12 + o.layout.order 12)
  have hcall := heap.dealloc_eq (ok.sizes o ho).2 (a := a) (by omega)
  have hptr : heap.heapStart + a = o.ptr := by
    rw [ha]
    exact congrArg (· + a) hstart
  rw [hptr] at hcall
  have hblock : o.block heapStart = (o.ptr - heap.heapStart, o.layout.order 12) := by
    rw [Object.block, ok.start_eq]
  have hmem : (o.ptr - heap.heapStart, o.layout.order 12) ∈ live := by
    rw [← hblock, ← Finset.mem_val, hlive]
    exact Multiset.mem_map_of_mem _ ho
  obtain ⟨s₀, tr, hinit, run⟩ := reached
  refine ⟨_, hcall, ⟨live.erase (o.ptr - heap.heapStart, o.layout.order 12),
    ⟨s₀, _, hinit, run.snoc (.freed hcall (ok.sizes o ho).2 ?_ hmem)⟩, ?_⟩, fun c hc => ?_,
    fun c hc => ?_, ?_⟩
  · exact hptr ▸ Nat.le_add_right _ _
  · rw [Finset.erase_val, hlive, ← hblock, Multiset.map_erase_of_mem _ _ ho]
  · exact ok.fits c (Multiset.mem_of_mem_erase hc)
  · exact ok.sizes c (Multiset.mem_of_mem_erase hc)
  · exact ok.separate.mono (Multiset.erase_le _ _)

/-- An object is not larger than the heap. -/
theorem size_le_heap (ok : UseOk heapStart heap objs) (ho : o ∈ objs) :
    o.layout.size ≤ 2 ^ 34 := by
  obtain ⟨hstart, hstop, hsize, -⟩ := ok.fits o ho
  omega

/-- A size with the pages of an object is not larger than the heap. -/
theorem size_of_pages (ok : UseOk heapStart heap objs) (ho : o ∈ objs)
    (hpages : nextPageSize o.layout.size = nextPageSize newLayout.size) :
    newLayout.size ≤ ISIZE_MAX := by
  have hold := ok.size_le_heap ho
  obtain ⟨hpos, hmax⟩ := ok.sizes o ho
  have hfits : newLayout.size ≤ USIZE_MAX := newLayout.fits.trans (Nat.sub_le _ _)
  rw [nextPageSize_eq hmax, nextPageSize_mod hfits] at hpages
  rw [USIZE_MAX] at hfits
  rw [ISIZE_MAX]
  omega

/-- The same pages make the same block. -/
theorem relabel (ok : UseOk heapStart heap objs) (ho : o ∈ objs) (hpos : 1 ≤ newLayout.size)
    (hpages : nextPageSize o.layout.size = nextPageSize newLayout.size) :
    UseOk heapStart heap (⟨o.ptr, newLayout⟩ ::ₘ objs.erase o) := by
  obtain ⟨live, reached, hlive⟩ := ok.live
  have horder : newLayout.order 12 = o.layout.order 12 := by
    rw [Layout.order, Layout.order, hpages]
  have hsize : newLayout.size ≤ ISIZE_MAX := ok.size_of_pages ho hpages
  have hcell : ∀ a, room.Cell ⟨o.ptr, newLayout⟩ a → room.Cell o a := fun a ha => by
    rw [room_cell] at ha ⊢
    rwa [horder] at ha
  obtain ⟨hstart, hstop, -, hdvd⟩ := ok.fits o ho
  constructor
  case live =>
    refine ⟨live, reached, ?_⟩
    have hblock : Object.block heapStart ⟨o.ptr, newLayout⟩ = o.block heapStart := by
      rw [Object.block, Object.block, horder]
    rw [hlive, Multiset.map_cons, hblock, ← Multiset.map_cons, Multiset.cons_erase ho]
  case fits =>
    refine Multiset.forall_mem_cons.mpr ⟨⟨hstart, ?_, ?_, ?_⟩, fun c hc => ?_⟩
    · rwa [horder]
    · exact (Layout.size_le_iff hpos hsize).mpr le_rfl
    · rwa [horder]
    · exact ok.fits c (Multiset.mem_of_mem_erase hc)
  case sizes =>
    refine Multiset.forall_mem_cons.mpr ⟨⟨hpos, hsize⟩, fun c hc => ?_⟩
    exact ok.sizes c (Multiset.mem_of_mem_erase hc)
  case separate =>
    refine (ok.separate.mono (Multiset.erase_le _ _)).cons fun c hc a ha => ?_
    exact ok.separate o ho c hc a (hcell a ha)

theorem ptr_pos (ok : UseOk heapStart heap objs) (ho : o ∈ objs) : 0 < o.ptr := by
  have hpos := heap.pos
  rw [ok.start_eq] at hpos
  exact hpos.trans_le (ok.fits o ho).start

/-- The object moves to another block, or stays. -/
theorem realloc (ok : UseOk heapStart heap objs) (ho : o ∈ objs) (hpos : 1 ≤ newLayout.size)
    {mem mem' : Mem}
    (hcall : heap.realloc mem o.ptr o.layout newLayout = some (ptr, heap', mem')) :
    (ptr = 0 ∧ mem' = mem ∧ nextPageSize o.layout.size ≠ nextPageSize newLayout.size ∧
      heap.alloc newLayout = some (0, heap') ∧ UseOk heapStart heap' objs) ∨
    ptr ≠ 0 ∧ UseOk heapStart heap' (⟨ptr, newLayout⟩ ::ₘ objs.erase o) ∧
      (∀ i < min o.layout.size newLayout.size, mem' (ptr + i) = mem (o.ptr + i)) ∧
      shape.SameOn (objs.erase o) mem mem' := by
  rw [BuddySystem.realloc] at hcall
  split at hcall
  · next hpages =>
      cases hcall
      exact .inr ⟨(ok.ptr_pos ho).ne', ok.relabel ho hpos hpages, fun _ _ => rfl, .refl _ _⟩
  · next hpages =>
      obtain ⟨⟨newPtr, heap₁⟩, halloc, hcall⟩ := Option.bind_eq_some_iff.mp hcall
      by_cases hptr : newPtr = 0
      · subst hptr
        simp only [ne_eq, not_true_eq_false, if_false] at hcall
        cases hcall
        exact .inl ⟨rfl, rfl, hpages, halloc, ok.refused halloc⟩
      · have ok₁ := ok.alloc hpos halloc hptr
        obtain ⟨heap₂, hdealloc, ok₂⟩ := ok₁.dealloc (Multiset.mem_cons_of_mem ho)
        simp only [ne_eq, hptr, not_false_eq_true, if_true, hdealloc, Option.bind_eq_bind,
          Option.bind_some] at hcall
        cases hcall
        rw [Multiset.erase_cons_tail_of_mem ho] at ok₂
        refine .inr ⟨hptr, ok₂, fun i hi => copyNonoverlapping_of_lt mem o.ptr ptr hi, ?_⟩
        intro c hc a ha
        refine if_neg fun hbyte => ?_
        -- the copy stays in the new block
        have hnew : shape.Cell ⟨ptr, newLayout⟩ a :=
          shape_cell.mpr ⟨hbyte.1, hbyte.2.trans_le (Nat.add_le_add_left (Nat.min_le_right _ _) _)⟩
        exact ok₂.shapes_separate.head c hc a hnew ha

/-- The call does not panic. -/
theorem realloc_returns (ok : UseOk heapStart heap objs) (ho : o ∈ objs)
    (hpos : 1 ≤ newLayout.size) (mem : Mem) :
    ∃ x, heap.realloc mem o.ptr o.layout newLayout = some x := by
  obtain ⟨⟨ptr, heap'⟩, hcall⟩ := heap.alloc_returns newLayout
  rw [BuddySystem.realloc]
  split
  · exact ⟨_, rfl⟩
  · by_cases hptr : ptr = 0
    · simp only [hcall, hptr, ne_eq, not_true_eq_false, if_false, Option.bind_eq_bind,
        Option.bind_some]
      exact ⟨_, rfl⟩
    · have ok' := ok.alloc hpos hcall hptr
      obtain ⟨heap₂, hdealloc, -⟩ := ok'.dealloc (Multiset.mem_cons_of_mem ho)
      simp only [hcall, hptr, ne_eq, not_false_eq_true, if_true, hdealloc, Option.bind_eq_bind,
        Option.bind_some]
      exact ⟨_, rfl⟩

end UseOk

variable {u v : HeapUse} {m : UseMove}

/-- A move keeps the objects in their blocks, and is an event of the store. -/
theorem UseOk.step (ok : UseOk heapStart u.heap u.objs) (hstep : UseStep u m v) :
    UseOk heapStart v.heap v.objs ∧
      ∃ e, u.Answers m e ∧ Store.Step shape (Object.Fits heapStart) u.view e v.view := by
  obtain ⟨enabled, hexec⟩ := hstep
  cases m with
  | alloc layout =>
      obtain ⟨⟨ptr, heap⟩, hcall, heq⟩ := Option.bind_eq_some_iff.mp hexec
      cases heq
      by_cases hptr : ptr = 0
      · subst hptr
        exact ⟨ok.refused hcall, .silent, .inr ⟨rfl, ok.not_vacant hcall u.mem⟩,
          .silent (.refl _ _)⟩
      · have ok' := ok.alloc enabled hcall hptr
        simp only [hptr, if_false]
        refine ⟨ok', .alloc ⟨ptr, layout⟩, .inl ⟨ptr, rfl⟩, ?_⟩
        exact .alloc (ok'.fits _ (Multiset.mem_cons_self _ _)) ok'.shapes_separate.head (.refl _ _)
  | dealloc o =>
      obtain ⟨heap, hcall, heq⟩ := Option.bind_eq_some_iff.mp hexec
      cases heq
      obtain ⟨heap', hcall', ok'⟩ := ok.dealloc enabled
      cases hcall.symm.trans hcall'
      exact ⟨ok', .free o, rfl, .free enabled (.refl _ _)⟩
  | store o offset v =>
      cases hexec
      exact ⟨ok, .write o offset v, rfl, .write enabled.1 enabled.2
        (Function.update_self _ _ _) fun _ _ _ _ hne => Function.update_of_ne hne _ _⟩
  | realloc o newLayout =>
      obtain ⟨ho, hpos, -⟩ := enabled
      obtain ⟨⟨ptr, heap, mem⟩, hcall, heq⟩ := Option.bind_eq_some_iff.mp hexec
      cases heq
      obtain ⟨rfl, rfl, hpages, halloc, ok'⟩ | ⟨hptr, ok', copied, same⟩ :=
        ok.realloc ho hpos hcall
      · exact ⟨ok', .silent, .inr ⟨rfl, hpages, ok.not_vacant halloc u.mem⟩, .silent (.refl _ _)⟩
      · simp only [hptr, if_false]
        refine ⟨ok', .resize o ⟨ptr, newLayout⟩, .inl ⟨ptr, rfl⟩, ?_⟩
        exact .resize ho (ok'.fits _ (Multiset.mem_cons_self _ _)) ok'.shapes_separate.head
          copied same

/-- The program writes to the object or gives it away. -/
def UseMove.Touches (o : Object) : UseMove → Prop
  | .dealloc c | .store c _ _ | .realloc c _ => c = o
  | .alloc _ => False

theorem HeapUse.Answers.touches {e : Event Object Nat} (answers : u.Answers m e)
    (touches : e.Touches o) : m.Touches o := by
  cases m with
  | alloc layout => obtain ⟨ptr, rfl⟩ | ⟨rfl, -⟩ := answers <;> exact touches
  | dealloc c =>
      cases answers
      exact touches
  | store c offset v =>
      cases answers
      exact touches
  | realloc c newLayout =>
      obtain ⟨ptr, rfl⟩ | ⟨rfl, -⟩ := answers
      · exact touches
      · cases touches

/-- No move panics. -/
theorem UseOk.returns (ok : UseOk heapStart u.heap u.objs) (enabled : u.Enabled m) :
    ∃ v, u.exec m = some v := by
  cases m with
  | alloc layout =>
      obtain ⟨x, hcall⟩ := u.heap.alloc_returns layout
      rw [HeapUse.exec, hcall]
      exact ⟨_, rfl⟩
  | dealloc o =>
      obtain ⟨heap, hcall, -⟩ := ok.dealloc enabled
      rw [HeapUse.exec, hcall]
      exact ⟨_, rfl⟩
  | store o offset v => exact ⟨_, rfl⟩
  | realloc o newLayout =>
      obtain ⟨x, hcall⟩ := ok.realloc_returns enabled.1 enabled.2.1 u.mem
      rw [HeapUse.exec, hcall]
      exact ⟨_, rfl⟩

theorem UseOk.new (start : StartsAt heapStart ⟨heap, ∅⟩) : UseOk heapStart heap 0 where
  live := ⟨∅, ⟨_, [], start, .nil⟩, rfl⟩
  fits _ h := absurd h (Multiset.notMem_zero _)
  sizes _ h := absurd h (Multiset.notMem_zero _)
  separate := .zero

/-- A move of the program, with the event that it sees. -/
abbrev SeenStep (heapStart : Nat) : HeapUse → UseMove × Event Object Nat → HeapUse → Prop :=
  Store.Answered UseStep HeapUse.Answers HeapUse.view shape (Object.Fits heapStart)

theorem UseOk.run {tr : List UseMove} (ok : UseOk heapStart u.heap u.objs)
    (run : Run UseStep u tr v) :
    UseOk heapStart v.heap v.objs ∧
      ∃ labels, labels.map Prod.fst = tr ∧ Run (SeenStep heapStart) u labels v :=
  Store.run_refines run ok (fun ok hstep => (UseOk.step ok hstep).1)
    fun ok hstep => (UseOk.step ok hstep).2

instance : (m : UseMove) → Decidable (u.Enabled m)
  | .alloc layout => inferInstanceAs (Decidable (1 ≤ layout.size))
  | .dealloc o => inferInstanceAs (Decidable (o ∈ u.objs))
  | .store o offset _ => inferInstanceAs (Decidable (o ∈ u.objs ∧ offset < o.layout.size))
  | .realloc o newLayout => inferInstanceAs
      (Decidable (o ∈ u.objs ∧ 1 ≤ newLayout.size ∧ newLayout.align = o.layout.align))

/-- The step a move stands for, if it is possible. -/
def HeapUse.move (u : HeapUse) (m : UseMove) : Option (UseMove × HeapUse) :=
  if u.Enabled m then (u.exec m).map fun v => (m, v) else none

theorem HeapUse.move_step {x : UseMove × HeapUse} (h : u.move m = some x) : UseStep u x.1 x.2 := by
  obtain ⟨enabled, h⟩ := Option.ite_none_right_eq_some.mp h
  obtain ⟨v, hexec, rfl⟩ := Option.map_eq_some_iff.mp h
  exact ⟨enabled, hexec⟩

end

/-- A heap that nobody has used. -/
def freshHeap : HeapUse :=
  ⟨(newHeap 0x7f0000000000 (by decide) (by decide)).heap, 0, fun _ => 0⟩

/-- A page and a small object; the small one grows within its page, and then out of it. -/
def growing : List UseMove :=
  [.alloc ⟨4096, 8, by decide, by decide⟩, .alloc ⟨100, 8, by decide, by decide⟩,
    .store ⟨0x7f0000001000, ⟨100, 8, by decide, by decide⟩⟩ 99 7,
    .realloc ⟨0x7f0000001000, ⟨100, 8, by decide, by decide⟩⟩ ⟨200, 8, by decide, by decide⟩,
    .realloc ⟨0x7f0000001000, ⟨200, 8, by decide, by decide⟩⟩ ⟨5000, 8, by decide, by decide⟩]

/-- The heap in which the small object has moved. -/
def grown : HeapUse := Path.last freshHeap (play HeapUse.move freshHeap growing)

example : (⟨0x7f0000002000, ⟨5000, 8, by decide, by decide⟩⟩ : Object) ∈ grown.objs := by
  decide +kernel

end UniAlloc.Buddy
