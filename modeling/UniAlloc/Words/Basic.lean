import Mathlib.Algebra.Group.Nat.Defs
import Mathlib.Data.BitVec
import Mathlib.Data.Finset.Card
import Mathlib.Order.Interval.Finset.Nat

/-!
# Bits in rows of words

A row of words of `w` bits is a row of bits. Setting and clearing a bit changes one word.
`ones` are the bits below a bound that are set.
-/

namespace Words

variable {w : Nat} {l : List (BitVec w)} {x : BitVec w} {i j n : Nat}

/-- Bit `i` of the row. -/
def bit (l : List (BitVec w)) (i : Nat) : Bool := (l[i / w]?.getD 0).getLsbD (i % w)

def setBit (l : List (BitVec w)) (i : Nat) : List (BitVec w) :=
  l.modify (i / w) fun x => x ||| 1#w <<< (i % w)

def clearBit (l : List (BitVec w)) (i : Nat) : List (BitVec w) :=
  l.modify (i / w) fun x => x &&& ~~~(1#w <<< (i % w))

/-- The number of ones below the first zero. -/
def trailingOnes (x : BitVec w) : Nat := ((List.range w).takeWhile x.getLsbD).length

/-- The bits below `n` that are set. -/
def ones (l : List (BitVec w)) (n : Nat) : Finset Nat := (Finset.range n).filter fun i => bit l i

@[simp] theorem length_setBit (l : List (BitVec w)) (i : Nat) : (setBit l i).length = l.length :=
  List.length_modify _ _ _

@[simp] theorem length_clearBit (l : List (BitVec w)) (i : Nat) :
    (clearBit l i).length = l.length :=
  List.length_modify _ _ _

theorem getLsbD_one_shiftLeft (hj : j < w) : (1#w <<< i).getLsbD j = decide (j = i) := by
  rw [BitVec.getLsbD_shiftLeft, BitVec.getLsbD_one]
  by_cases h : j = i
  · subst h
    have := Nat.zero_lt_of_lt hj
    simp [hj, this]
  · simp [h, hj]
    omega

theorem bit_modify (hw : 0 < w) (hi : i / w < l.length) (f : BitVec w → BitVec w)
    (b : Bool → Bool)
    (hf : ∀ x : BitVec w, ∀ k < w, (f x).getLsbD k = if k = i % w then b (x.getLsbD k)
      else x.getLsbD k) :
    bit (l.modify (i / w) f) j = if j = i then b (bit l j) else bit l j := by
  have hmod : j % w < w := Nat.mod_lt j hw
  have hij : j / w = i / w → (j % w = i % w ↔ j = i) := by
    intro hdiv
    constructor
    · intro hrem
      rw [← Nat.div_add_mod j w, ← Nat.div_add_mod i w, hdiv, hrem]
    · rintro rfl
      rfl
  rw [bit, bit, List.getElem?_modify]
  by_cases hdiv : i / w = j / w
  · simp only [hdiv, if_true]
    rw [← hdiv, List.getElem?_eq_getElem hi, Option.map_eq_map, Option.map_some, Option.getD_some,
      Option.getD_some, hf _ _ hmod]
    exact if_congr (hij hdiv.symm) rfl rfl
  · have hne : j ≠ i := by
      rintro rfl
      exact hdiv rfl
    simp only [hdiv, hne, if_false, id_map']

theorem bit_setBit (hw : 0 < w) (hi : i / w < l.length) :
    bit (setBit l i) j = if j = i then true else bit l j := by
  refine bit_modify hw hi _ (fun _ => true) ?_
  intro x k hk
  rw [BitVec.getLsbD_or, getLsbD_one_shiftLeft hk]
  by_cases h : k = i % w <;> simp [h]

theorem bit_clearBit (hw : 0 < w) (hi : i / w < l.length) :
    bit (clearBit l i) j = if j = i then false else bit l j := by
  refine bit_modify hw hi _ (fun _ => false) ?_
  intro x k hk
  rw [BitVec.getLsbD_and, BitVec.getLsbD_not, getLsbD_one_shiftLeft hk]
  by_cases h : k = i % w <;> simp [h, hk]

theorem bit_cons_of_lt (hi : i < w) : bit (x :: l) i = x.getLsbD i := by
  rw [bit, Nat.div_eq_of_lt hi, Nat.mod_eq_of_lt hi]
  rfl

theorem bit_cons_add (hw : 0 < w) (i : Nat) : bit (x :: l) (w + i) = bit l i := by
  rw [bit, bit, Nat.add_div_left i hw, Nat.add_mod_left]
  rfl

theorem bit_cons (hw : 0 < w) (x : BitVec w) (l : List (BitVec w)) (i : Nat) :
    bit (x :: l) i = if i < w then x.getLsbD i else bit l (i - w) := by
  split
  · next hi => exact bit_cons_of_lt hi
  · next hi =>
      obtain ⟨j, rfl⟩ := Nat.exists_eq_add_of_le (Nat.not_lt.mp hi)
      rw [bit_cons_add hw, Nat.add_sub_cancel_left]

theorem setBit_cons_of_lt (hi : i < w) : setBit (x :: l) i = (x ||| 1#w <<< i) :: l := by
  rw [setBit, Nat.div_eq_of_lt hi, Nat.mod_eq_of_lt hi]
  rfl

theorem setBit_cons_add (hw : 0 < w) (i : Nat) : setBit (x :: l) (w + i) = x :: setBit l i := by
  rw [setBit, setBit, Nat.add_div_left i hw, Nat.add_mod_left]
  rfl

theorem bit_replicate_zero (n i : Nat) : bit (List.replicate n (0 : BitVec w)) i = false := by
  rw [bit, List.getElem?_replicate]
  split
  · exact BitVec.getLsbD_zero
  · exact BitVec.getLsbD_zero

theorem bit_allOnes (hw : 0 < w) (hi : i < w * l.length) :
    bit (l.map fun _ => BitVec.allOnes w) i = true := by
  have hlt : i / w < l.length := Nat.div_lt_of_lt_mul hi
  rw [bit, List.getElem?_map, List.getElem?_eq_getElem hlt, Option.map_some, Option.getD_some,
    BitVec.getLsbD_allOnes, decide_eq_true (Nat.mod_lt i hw)]

theorem trailingOnes_le (x : BitVec w) : trailingOnes x ≤ w := by
  have := (List.takeWhile_prefix x.getLsbD (l := List.range w)).length_le
  rwa [List.length_range] at this

theorem getLsbD_of_lt_trailingOnes (hi : i < trailingOnes x) : x.getLsbD i = true := by
  have hle := trailingOnes_le x
  have hget := (List.takeWhile_prefix x.getLsbD (l := List.range w)).getElem hi
  rw [List.getElem_range] at hget
  have hmem : i ∈ (List.range w).takeWhile x.getLsbD := List.mem_of_getElem hget
  exact List.all_eq_true.mp List.all_takeWhile i hmem

theorem mem_ones : i ∈ ones l n ↔ i < n ∧ bit l i = true := by
  rw [ones, Finset.mem_filter, Finset.mem_range]

theorem card_ones_le (l : List (BitVec w)) (n : Nat) : (ones l n).card ≤ n := by
  calc (ones l n).card ≤ (Finset.range n).card := Finset.card_filter_le _ _
    _ = n := Finset.card_range n

theorem ones_replicate_zero (m n : Nat) : ones (List.replicate m (0 : BitVec w)) n = ∅ := by
  apply Finset.filter_eq_empty_iff.mpr
  intro i _
  rw [bit_replicate_zero]
  decide

/-- All bits are set if as many are. -/
theorem card_ones_eq_iff : (ones l n).card = n ↔ ∀ i < n, bit l i = true := by
  constructor
  · intro hcard i hi
    have heq : ones l n = Finset.range n :=
      Finset.eq_of_subset_of_card_le (Finset.filter_subset _ _) (by rw [Finset.card_range, hcard])
    exact (mem_ones.mp (heq ▸ Finset.mem_range.mpr hi)).2
  · intro hall
    rw [ones, Finset.filter_true_of_mem, Finset.card_range]
    intro i hi
    exact hall i (Finset.mem_range.mp hi)

/-- Setting bits that were clear. -/
theorem card_ones_add {l' : List (BitVec w)} {is : List Nat} (nodup : is.Nodup)
    (hin : ∀ i ∈ is, i < n) (clear : ∀ i ∈ is, bit l i = false)
    (hbit : ∀ i < n, bit l' i = (bit l i || decide (i ∈ is))) :
    (ones l' n).card = (ones l n).card + is.length := by
  have hunion : ones l' n = ones l n ∪ is.toFinset := by
    ext i
    rw [Finset.mem_union, List.mem_toFinset, mem_ones, mem_ones]
    constructor
    · rintro ⟨hi, hset⟩
      rw [hbit i hi, Bool.or_eq_true, decide_eq_true_eq] at hset
      exact hset.imp (fun h => ⟨hi, h⟩) id
    · rintro (⟨hi, hset⟩ | hmem)
      · exact ⟨hi, by rw [hbit i hi, hset, Bool.true_or]⟩
      · exact ⟨hin i hmem, by rw [hbit i (hin i hmem), decide_eq_true hmem, Bool.or_true]⟩
  have hdisj : Disjoint (ones l n) is.toFinset := by
    apply Finset.disjoint_left.mpr
    intro i hi hmem
    have hclear := clear i (List.mem_toFinset.mp hmem)
    rw [(mem_ones.mp hi).2] at hclear
    exact absurd hclear (by decide)
  rw [hunion, Finset.card_union_of_disjoint hdisj, List.toFinset_card_of_nodup nodup]

/-- Clearing bits that were set. -/
theorem card_ones_sub {l' : List (BitVec w)} {is : List Nat} (nodup : is.Nodup)
    (hin : ∀ i ∈ is, i < n) (set : ∀ i ∈ is, bit l i = true)
    (hbit : ∀ i < n, bit l' i = (bit l i && decide (i ∉ is))) :
    (ones l' n).card = (ones l n).card - is.length := by
  have hback : (ones l n).card = (ones l' n).card + is.length := card_ones_add nodup hin
    (fun i hi => by rw [hbit i (hin i hi), decide_eq_false (not_not.mpr hi), Bool.and_false])
    (fun i hi => by
      rw [hbit i hi]
      by_cases hmem : i ∈ is
      · simp [hmem, set i hmem]
      · simp [hmem])
  omega

end Words
