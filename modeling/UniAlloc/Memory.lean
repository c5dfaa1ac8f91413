import Mathlib.Algebra.Group.Nat.Defs
import Mathlib.Logic.Function.Basic

/-!
# Word memory

Memory is a map from byte addresses to the words stored there. Distinct words of
the program never overlap, so that the word at one address does not depend on
writes at others. A nullable Rust pointer is a word; an `Option<*mut T>` is a
discriminant word followed by the pointer.
-/

namespace UniAlloc

abbrev Mem := Nat → Nat

/-- `isize::MAX`. -/
def ISIZE_MAX : Nat := 0x7fffffffffffffff

/-- `usize::MAX`. -/
def USIZE_MAX : Nat := 0xffffffffffffffff

/-- Clearing the low bits of a word rounds it down. -/
theorem and_clear_low {n k : Nat} (hn : n < 2 ^ 64) (hk : k ≤ 64) :
    n &&& (2 ^ 64 - 2 ^ k) = n / 2 ^ k * 2 ^ k := by
  have hpow : 2 ^ 64 - 2 ^ k = 2 ^ 64 - (2 ^ k - 1 + 1) := by
    rw [Nat.sub_add_cancel (Nat.two_pow_pos k)]
  have hle : 2 ^ k ≤ 2 ^ 64 := Nat.pow_le_pow_right (by omega) hk
  have hpos := Nat.two_pow_pos k
  apply Nat.eq_of_testBit_eq
  intro i
  rw [hpow, Nat.testBit_and, Nat.testBit_two_pow_sub_succ (by omega), Nat.testBit_two_pow_sub_one,
    Nat.testBit_mul_two_pow, Nat.testBit_div_two_pow]
  by_cases hi : k ≤ i
  · have hbig : 64 ≤ i → n.testBit i = false := fun h =>
      Nat.testBit_lt_two_pow (Nat.lt_of_lt_of_le hn (Nat.pow_le_pow_right (by omega) h))
    by_cases h : i < 64
    · simp [hi, h]
    · simp [hi, hbig (by omega)]
  · simp [hi, Nat.lt_of_not_le hi]

namespace Mem

/-- An `Option<*mut T>` at address `a`. -/
def readOption (mem : Mem) (a : Nat) : Option Nat :=
  if mem a = 0 then none else some (mem (a + 8))

def writeOption (mem : Mem) (a : Nat) : Option Nat → Mem
  | none => Function.update mem a 0
  | some p => Function.update (Function.update mem a 1) (a + 8) p

variable (mem : Mem) {a b : Nat}

@[simp] theorem readOption_writeOption (a : Nat) (v : Option Nat) :
    readOption (writeOption mem a v) a = v := by
  cases v with
  | none => simp [readOption, writeOption]
  | some p => simp [readOption, writeOption]

/-- Writing an option leaves all words but its own two. -/
theorem writeOption_of_ne (v : Option Nat) (h : b ≠ a) (h' : b ≠ a + 8) :
    writeOption mem a v b = mem b := by
  cases v <;> simp [writeOption, h, h']

theorem readOption_congr {mem' : Mem} (h : mem' a = mem a) (h' : mem' (a + 8) = mem (a + 8)) :
    readOption mem' a = readOption mem a := by
  rw [readOption, readOption, h, h']

theorem readOption_writeOption_of_ne (v : Option Nat) (h : b ≠ a) (h' : b ≠ a + 8)
    (h'' : b + 8 ≠ a) : readOption (writeOption mem a v) b = readOption mem b :=
  readOption_congr mem (writeOption_of_ne mem v h h') (writeOption_of_ne mem v h'' (by omega))

end Mem

end UniAlloc
