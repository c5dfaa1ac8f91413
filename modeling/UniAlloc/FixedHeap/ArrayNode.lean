import UniAlloc.Bump.Page
import UniAlloc.SizeClass.Pages

/-!
# The page table of a fixed heap

With a fixed heap the radix tree is one array with an `i64` for every page. It lies in
the memory that it describes. No access is checked: the slice through which an entry is
reached is as long as the index demands. Keys are addresses shifted to the left, and
differences of addresses wrap.
-/

namespace UniAlloc.FixedHeap

open PageBump (wrappingSub)
open Radix (pageKey)
open Slab (PAGE_SIZE)

/-- The `i64` at an address. -/
def readI64 (mem : Mem) (a : Nat) : Int := asI64 (mem a)

/-- `v as usize` of an `i64`. -/
def asU64 (v : Int) : Nat := (v % (2 ^ 64 : Nat)).toNat

def writeI64 (mem : Mem) (a : Nat) (v : Int) : Mem := Function.update mem a (asU64 v)

/-- `core::ptr::copy` of `count` entries. -/
def copy (mem : Mem) (src dst count : Nat) : Mem := fun x =>
  if dst ≤ x ∧ x < dst + 8 * count then mem (x - dst + src) else mem x

/-- The values of an `i64`. -/
def IsI64 (v : Int) : Prop := -2 ^ 63 ≤ v ∧ v < 2 ^ 63

structure ArrayNode where
  base : Nat
  nodes : Nat
  deriving DecidableEq

namespace ArrayNode

def new : ArrayNode := ⟨0, 0⟩

def initWithRange (start array : Nat) : ArrayNode := ⟨start, array⟩

variable (self : ArrayNode)

/-- `(k - self.base) / PAGE_SIZE` -/
def start (k : Nat) : Nat := wrappingSub k self.base / PAGE_SIZE

/-- The indices of `n` entries. -/
def indices (k n : Nat) : List Nat := (List.range n).map fun i => self.start (k >>> 16) + i

/-- `for i in 0..n { nodes[start + i] = v }` -/
def fill (start : Nat) (v : Int) (mem : Mem) : Nat → Mem
  | 0 => mem
  | n + 1 => writeI64 (fill start v mem n) (self.nodes + 8 * (start + n)) v

def insert (mem : Mem) (k : Nat) (v : Int) (n : Nat) : Option Mem :=
  if self.nodes = 0 then none else some (self.fill (self.start (k >>> 16)) v mem n)

def remove (mem : Mem) (k n : Nat) : Option Mem :=
  if self.nodes = 0 then none else some (self.fill (self.start (k >>> 16)) 0 mem n)

def getMut (mem : Mem) (k : Nat) : Int := readI64 mem (self.nodes + 8 * self.start (k >>> 16))

/-- The entry of a page, by its number within the heap. -/
def entry (mem : Mem) (i : Nat) : Int := readI64 mem (self.nodes + 8 * i)

end ArrayNode

section Words

variable {mem mem' : Mem} {a b : Nat} {v : Int}

theorem bmod_toNat_emod (v : Int) {n : Nat} (hn : 0 < n) :
    ((v % n).toNat : Int).bmod n = v.bmod n := by
  rw [Int.toNat_of_nonneg (Int.emod_nonneg v (by omega)), Int.emod_bmod]

theorem bmod_of_isI64 (hv : IsI64 v) : v.bmod (2 ^ 64) = v := by
  obtain ⟨hlo, hhi⟩ := hv
  have hlo' : -9223372036854775808 ≤ v := by simpa using hlo
  have hhi' : v < 9223372036854775808 := by simpa using hhi
  refine Int.bmod_eq_of_le ?_ ?_
  · norm_num
    exact hlo'
  · norm_num
    omega

theorem asI64_asU64 (hv : IsI64 v) : asI64 (asU64 v) = v :=
  (bmod_toNat_emod v (Nat.two_pow_pos 64)).trans (bmod_of_isI64 hv)

theorem readI64_writeI64 (hv : IsI64 v) : readI64 (writeI64 mem a v) a = v := by
  rw [readI64, writeI64, Function.update_self, asI64_asU64 hv]

theorem readI64_writeI64_of_ne (v : Int) (h : b ≠ a) :
    readI64 (writeI64 mem a v) b = readI64 mem b := by
  rw [readI64, writeI64, Function.update_of_ne h, readI64]

theorem writeI64_of_ne (v : Int) (h : b ≠ a) : writeI64 mem a v b = mem b :=
  Function.update_of_ne h _ _

end Words

namespace ArrayNode

variable {self : ArrayNode} {mem mem' : Mem} {addr first n i : Nat} {v : Int}

/-- The words of the first `count` entries. -/
def InArray (self : ArrayNode) (count x : Nat) : Prop :=
  self.nodes ≤ x ∧ x < self.nodes + 8 * count

instance (count x : Nat) : Decidable (self.InArray count x) :=
  inferInstanceAs (Decidable (_ ∧ _))

theorem entry_congr (same : mem' (self.nodes + 8 * i) = mem (self.nodes + 8 * i)) :
    self.entry mem' i = self.entry mem i := by
  rw [entry, entry, readI64, same, readI64]

/-- The entries after a run of them has been filled. -/
theorem entry_fill (hv : IsI64 v) (mem : Mem) (first n i : Nat) :
    self.entry (self.fill first v mem n) i =
      if first ≤ i ∧ i < first + n then v else self.entry mem i := by
  induction n with
  | zero => rw [if_neg (by omega), fill]
  | succ n ih =>
      rw [fill, entry]
      obtain rfl | hne := eq_or_ne i (first + n)
      · rw [readI64_writeI64 hv, if_pos (by omega)]
      · rw [readI64_writeI64_of_ne v (by omega)]
        refine ih.trans ?_
        simp only [show first ≤ i ∧ i < first + n ↔ first ≤ i ∧ i < first + (n + 1) by omega]

theorem fill_outside (v : Int) (mem : Mem) (first : Nat) {x : Nat}
    (hx : ¬self.InArray (first + n) x) : self.fill first v mem n x = mem x := by
  induction n with
  | zero => rfl
  | succ n ih =>
      rw [InArray] at hx ih
      rw [fill, writeI64_of_ne v (by omega)]
      exact ih (by omega)

/-- Page `i` of the heap begins here. -/
def pageAddr (self : ArrayNode) (i : Nat) : Nat := self.base + i * PAGE_SIZE

/-- The bytes of a page. -/
def InPage (self : ArrayNode) (i x : Nat) : Prop :=
  self.pageAddr i ≤ x ∧ x < self.pageAddr i + PAGE_SIZE

instance (i x : Nat) : Decidable (self.InPage i x) := inferInstanceAs (Decidable (_ ∧ _))

theorem inPage_unique {j x : Nat} (h : self.InPage i x) (h' : self.InPage j x) : i = j := by
  simp only [InPage, pageAddr, PAGE_SIZE] at h h'
  omega

/-- The page of an address. -/
theorem inPage_of_le {x : Nat} (h : self.base ≤ x) : self.InPage ((x - self.base) / PAGE_SIZE) x := by
  simp only [InPage, pageAddr, PAGE_SIZE]
  omega

/-- Pages come in the order of their numbers. -/
theorem InPage.le_iff {j x : Nat} (h : self.InPage i x) : self.pageAddr j ≤ x ↔ j ≤ i := by
  simp only [InPage, pageAddr, PAGE_SIZE] at h ⊢
  omega

theorem InPage.lt_iff {j x : Nat} (h : self.InPage i x) : x < self.pageAddr j ↔ i < j := by
  simp only [InPage, pageAddr, PAGE_SIZE] at h ⊢
  omega

theorem pageAddr_add (self : ArrayNode) (i n : Nat) :
    self.pageAddr i + n * PAGE_SIZE = self.pageAddr (i + n) := by
  simp only [pageAddr, Nat.add_mul, Nat.add_assoc]

theorem pageAddr_injective (self : ArrayNode) : Function.Injective self.pageAddr := by
  intro i j h
  simp only [pageAddr, PAGE_SIZE] at h
  omega

/-- The key of an address is the address again. -/
theorem pageKey_shiftRight (h : addr < 2 ^ 48) : pageKey addr >>> 16 = addr := by
  rw [pageKey, Nat.shiftLeft_eq, Nat.shiftRight_eq_div_pow]
  omega

theorem start_pageAddr {k : Nat} (hk : k < PAGE_SIZE) (hlt : self.pageAddr i + k < 2 ^ 64) :
    self.start (self.pageAddr i + k) = i := by
  simp only [start, wrappingSub, PAGE_SIZE, pageAddr] at hk hlt ⊢
  omega

end ArrayNode

end UniAlloc.FixedHeap
