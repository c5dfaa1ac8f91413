import Mathlib.Data.Finset.Insert
import UniAlloc.Bitmap.Select

/-!
# Pages with a bitmap

An `AllocablePage4K` holds a bitmap of 512 bits and the cells that are handed out. The first
free cell is looked for with `select`, which finds ones, while a one stands for a claimed
cell everywhere else.
-/

namespace UniAlloc.BitmapAlloc

def FOUR_K : Nat := 1 <<< 12

structure AllocablePage4K where
  bitmap : SIMDBitmap512
  data : Vector (BitVec 8) (FOUR_K - 128)

namespace AllocablePage4K

open SIMDBitmap512

def new : AllocablePage4K := ⟨SIMDBitmap512.new, .replicate _ 0⟩

/-- Resets the memory to zero. -/
def fillZero (self : AllocablePage4K) : AllocablePage4K :=
  ⟨self.bitmap.fillZero, .replicate _ 0⟩

def reset (self : AllocablePage4K) : AllocablePage4K := self.fillZero

/-- The first available cell. The first cells are occupied by the bitmap itself. -/
def getFirstFreeBit (self : AllocablePage4K) : Option U64 :=
  let unaviableBits := 128 / 8
  self.bitmap.select unaviableBits

def flipBit (self : AllocablePage4K) (idx : Nat) : Option AllocablePage4K := do
  let bitmap ← self.bitmap.flip idx
  return { self with bitmap }

def getBit (self : AllocablePage4K) (idx : Nat) : Option Bool := self.bitmap.get idx

/-- Takes the first available cell. -/
def claimFirstFreeBit (self : AllocablePage4K) : Option (U64 × AllocablePage4K) := do
  let bitidx ← self.getFirstFreeBit
  let self ← self.flipBit bitidx.toNat
  return (bitidx, self)

/-- Gives a cell back. Its bit is asserted to be a one. -/
def unsetBit (self : AllocablePage4K) (index : Nat) : Option AllocablePage4K := do
  let bit ← self.getBit index
  if bit then self.flipBit index else none

def isFull (self : AllocablePage4K) : Bool := self.bitmap.realSize = 512 - 16

inductive Call where
  | claim
  | unset (index : Nat)

/-- What a page is for: with the cells in `claimed` handed out, it hands out a fresh cell
behind the bitmap as long as there is one, takes cells back, and knows when it is full. -/
def Serves : AllocablePage4K → Finset Nat → List Call → Prop
  | page, claimed, [] => Shows page claimed
  | page, claimed, .claim :: calls =>
      Shows page claimed ∧ (claimed.card < 496 → ∃ bitidx page',
        page.claimFirstFreeBit = some (bitidx, page') ∧ bitidx.toNat ∉ claimed ∧
          16 ≤ bitidx.toNat ∧ bitidx.toNat < 512 ∧
            Serves page' (insert bitidx.toNat claimed) calls)
  | page, claimed, .unset index :: calls =>
      Shows page claimed ∧ (index ∈ claimed → ∃ page', page.unsetBit index = some page' ∧
        Serves page' (claimed.erase index) calls)
where
  /-- The bits of the cells and `isFull` agree with what is claimed. -/
  Shows (page : AllocablePage4K) (claimed : Finset Nat) : Prop :=
    (∀ n, 16 ≤ n → n < 512 → page.getBit n = some (decide (n ∈ claimed))) ∧
      (page.isFull ↔ claimed.card = 496)

variable {self : AllocablePage4K} {set : Nat → Bool}

/-- With more than 16 ones a claim takes the seventeenth of them away. -/
theorem claimFirstFreeBit_of_lt (rep : self.bitmap.Represents set) (h : 16 < rank set 512) :
    ∃ p < 512, set p ∧ rank set p = 16 ∧ ∃ page,
      self.claimFirstFreeBit = some (BitVec.ofNat 64 p, page) ∧
        page.bitmap.Represents fun m => set m ^^ decide (m = p) := by
  obtain ⟨p, hp, hset, hrank, hselect⟩ := rep.answers.select 16 h
  obtain ⟨b, hflip, rep'⟩ := rep.flip hp
  refine ⟨p, hp, hset, hrank, { self with bitmap := b }, ?_, rep'⟩
  have hfirst : self.getFirstFreeBit = some (BitVec.ofNat 64 p) := hselect
  have hp_toNat : (BitVec.ofNat 64 p).toNat = p := Nat.mod_eq_of_lt (by omega)
  rw [claimFirstFreeBit, hfirst, Option.bind_eq_bind, Option.bind_some, hp_toNat, flipBit,
    hflip]
  rfl

/-- With at most 16 ones there is nothing to select, and a claim fails. -/
theorem claimFirstFreeBit_eq_none (rep : self.bitmap.Represents set) (h : rank set 512 ≤ 16) :
    self.claimFirstFreeBit = none := by
  have hselect : self.getFirstFreeBit = none :=
    rep.select_eq_none (by decide : (16 : U64).toNat ≤ 512) h
  rw [claimFirstFreeBit, hselect, Option.bind_eq_bind, Option.bind_none]

/-- A new or reset page serves no claim: its calls go well if and only if none is one. Before a
claim no cell is claimed, and the calls do not begin with `unsetBit`. -/
theorem serves_iff {page : AllocablePage4K} {calls : List Call}
    (hstart : page = new ∨ ∃ page' : AllocablePage4K, page = page'.reset)
    (hfirst : ∀ index, calls.head? ≠ some (.unset index)) :
    Serves page ∅ calls ↔ Call.claim ∉ calls := by
  have rep : page.bitmap.Represents fun _ => false := by
    obtain rfl | ⟨page', rfl⟩ := hstart
    · exact represents_zero
    · exact represents_zero
  have hrank : ∀ n, rank (fun _ => false) n = 0 := fun n =>
    Nat.count_iff_forall_not.mpr fun _ _ => Bool.false_ne_true
  cases calls with
  | nil =>
      refine iff_of_true ⟨?_, ?_⟩ List.not_mem_nil
      · intro n _ hn
        rw [getBit, rep.get hn]
        rfl
      · have hsize := rep.prefixSum 7
        rw [hrank] at hsize
        have hzero : page.bitmap.realSize = 0 := BitVec.eq_of_toNat_eq hsize
        rw [isFull, hzero]
        decide
  | cons call calls =>
      cases call with
      | claim =>
          refine iff_of_false ?_ (not_not.mpr List.mem_cons_self)
          rintro ⟨-, hclaim⟩
          obtain ⟨bitidx, page', hsome, -⟩ := hclaim (by decide)
          rw [claimFirstFreeBit_eq_none rep ((hrank 512).le.trans (Nat.zero_le 16))] at hsome
          cases hsome
      | unset index => exact absurd rfl (hfirst index)

/-- A page that was reset does not serve a claim and the return of the cell. -/
theorem serves_iff_reset : Serves new.reset ∅ [.claim, .unset 16] ↔
    Call.claim ∉ [Call.claim, .unset 16] :=
  serves_iff (.inr ⟨new, rfl⟩) (by simp)

/-- The first claim on a new page asks for the word behind the bitmap. -/
theorem new_claims_nothing : new.claimFirstFreeBit = none ∧ ¬Serves new ∅ [.claim] := by
  have hnone : new.claimFirstFreeBit = none := by decide +kernel
  refine ⟨hnone, ?_⟩
  rintro ⟨-, hclaim⟩
  obtain ⟨bitidx, page, hsome, -⟩ := hclaim (by decide)
  rw [hnone] at hsome
  cases hsome

end AllocablePage4K

end UniAlloc.BitmapAlloc
