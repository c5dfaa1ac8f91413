import UniAlloc.PerCpu.Rseq
import Mathlib.Algebra.Order.Group.Nat

/-!
# The arrays in a slab

What an array contains, read off its header and its words, and what the stores of the two
sequences make of it.
-/

namespace UniAlloc.PerCpu

namespace Slabs

variable (S : Slabs) {mem mem' : Mem} {cpu cpu' cl cl' i j k : Nat}

/-- So many words fit into a slab. -/
def WORDS : Nat := 2 ^ 15

theorem word_inj (hk : k < WORDS) (hj : j < WORDS) (h : S.word cpu k = S.word cpu' j) :
    cpu = cpu' ∧ k = j := by
  simp only [word, SHIFT, WORDS] at h hk hj
  omega

theorem word_ne_of_cpu (hk : k < WORDS) (hj : j < WORDS) (h : cpu ≠ cpu') :
    S.word cpu k ≠ S.word cpu' j :=
  fun heq => h (S.word_inj hk hj heq).1

theorem word_ne (hk : k < WORDS) (hj : j < WORDS) (h : k ≠ j) : S.word cpu k ≠ S.word cpu' j :=
  fun heq => h (S.word_inj hk hj heq).2

theorem first_succ : S.first (cl + 1) = S.first cl + S.cap := by
  simp only [first, Nat.succ_mul]
  omega

theorem first_le (h : cl ≤ cl') : S.first cl ≤ S.first cl' :=
  Nat.add_le_add_left (Nat.mul_le_mul_right _ h) _

/-- The arrays of two classes have no word in common. -/
theorem slot_inj (hi : i < S.cap) (hj : j < S.cap) (h : S.first cl + i = S.first cl' + j) :
    cl = cl' ∧ i = j := by
  obtain hlt | rfl | hlt := lt_trichotomy cl cl'
  · have := S.first_le (Nat.succ_le_of_lt hlt)
    rw [first_succ] at this
    omega
  · exact ⟨rfl, by omega⟩
  · have := S.first_le (Nat.succ_le_of_lt hlt)
    rw [first_succ] at this
    omega

theorem first_add_le (hcl : cl < S.classes) : S.first cl + S.cap ≤ WORDS := by
  have hle := S.first_le (Nat.succ_le_of_lt hcl)
  have hfits := S.fits
  rw [first_succ] at hle
  rw [← Nat.mul_assoc] at hfits
  simp only [first, WORDS, SHIFT] at hle hfits ⊢
  omega

theorem slot_lt (hcl : cl < S.classes) (hi : i < S.cap) : S.first cl + i < WORDS := by
  have := S.first_add_le hcl
  omega

theorem header_lt (hcl : cl < S.classes) : cl < WORDS := by
  have hfits := S.fits
  simp only [WORDS, SHIFT] at hfits ⊢
  omega

theorem header_ne_slot (hcl : cl < S.classes) : cl ≠ S.first cl' + i := by
  rw [first]
  omega

/-- The header describes the array of its class. -/
structure HeaderOk (mem : Mem) (cpu cl : Nat) : Prop where
  begin : (S.header mem cpu cl).begin = S.first cl
  «end» : (S.header mem cpu cl).end = S.first cl + S.cap
  le : S.first cl ≤ (S.header mem cpu cl).current
  le_end : (S.header mem cpu cl).current ≤ S.first cl + S.cap

/-- How many pointers the array has. -/
def size (mem : Mem) (cpu cl : Nat) : Nat := (S.header mem cpu cl).current - S.first cl

/-- The pointers of an array, the last one first. -/
def contents (mem : Mem) (cpu cl : Nat) : List Nat :=
  (List.range (S.size mem cpu cl)).reverse.map fun i => mem (S.word cpu (S.first cl + i))

@[simp] theorem length_contents : (S.contents mem cpu cl).length = S.size mem cpu cl := by
  simp [contents]

variable {S}

theorem HeaderOk.size_le (h : S.HeaderOk mem cpu cl) : S.size mem cpu cl ≤ S.cap := by
  have := h.le_end
  rw [size]
  omega

theorem HeaderOk.current_eq (h : S.HeaderOk mem cpu cl) :
    (S.header mem cpu cl).current = S.first cl + S.size mem cpu cl := by
  have := h.le
  rw [size]
  omega

theorem HeaderOk.congr (h : S.HeaderOk mem cpu cl)
    (same : mem' (S.word cpu cl) = mem (S.word cpu cl)) : S.HeaderOk mem' cpu cl := by
  have hhdr : S.header mem' cpu cl = S.header mem cpu cl := by rw [header, header, same]
  exact ⟨hhdr ▸ h.begin, hhdr ▸ h.end, hhdr ▸ h.le, hhdr ▸ h.le_end⟩

/-- An array depends on its header and on the words it uses. -/
theorem contents_congr (hsize : S.size mem' cpu cl = S.size mem cpu cl)
    (same : ∀ i < S.size mem cpu cl,
      mem' (S.word cpu (S.first cl + i)) = mem (S.word cpu (S.first cl + i))) :
    S.contents mem' cpu cl = S.contents mem cpu cl := by
  rw [contents, contents, hsize]
  refine List.map_congr_left fun i hi => same i ?_
  simpa using hi

/-- One pointer more. -/
theorem contents_succ (hsize : S.size mem' cpu cl = S.size mem cpu cl + 1)
    (same : ∀ i < S.size mem cpu cl,
      mem' (S.word cpu (S.first cl + i)) = mem (S.word cpu (S.first cl + i))) :
    S.contents mem' cpu cl =
      mem' (S.word cpu (S.first cl + S.size mem cpu cl)) :: S.contents mem cpu cl := by
  rw [contents, contents, hsize, List.range_succ, List.reverse_append, List.map_append]
  refine congrArg (_ :: ·) (List.map_congr_left fun i hi => same i ?_)
  simpa using hi

section Stores

theorem half_current (w : Nat) : half mem w 0 = (Header.ofWord (mem w)).current := by
  simp [half, Header.ofWord]

theorem half_begin (w : Nat) : half mem w 2 = (Header.ofWord (mem w)).begin := by
  simp [half, Header.ofWord]

theorem half_end (w : Nat) : half mem w 3 = (Header.ofWord (mem w)).end := by
  simp [half, Header.ofWord]

/-- Storing `current` leaves the rest of the header. -/
theorem ofWord_setCurrent (w v : Nat) : Header.ofWord (setCurrent mem w v w) =
    { Header.ofWord (mem w) with current := v % 2 ^ 16 } := by
  simp only [setCurrent, Function.update_self, Header.ofWord, Header.mk.injEq]
  omega

theorem setCurrent_of_ne {w a v : Nat} (h : a ≠ w) : setCurrent mem w v a = mem a :=
  Function.update_of_ne h ..

variable {v : Nat}

theorem HeaderOk.current_lt (h : S.HeaderOk mem cpu cl) (hcl : cl < S.classes) :
    (S.header mem cpu cl).current ≤ WORDS :=
  h.le_end.trans (S.first_add_le hcl)

/-- A new value of `current` inside the array. -/
theorem HeaderOk.setCurrent (h : S.HeaderOk mem cpu cl) (hcl : cl < S.classes)
    (hle : S.first cl ≤ v) (hle' : v ≤ S.first cl + S.cap) :
    S.HeaderOk (PerCpu.setCurrent mem (S.word cpu cl) v) cpu cl ∧
      S.size (PerCpu.setCurrent mem (S.word cpu cl) v) cpu cl = v - S.first cl := by
  have hv : v % 2 ^ 16 = v := by
    have := hle'.trans (S.first_add_le hcl)
    simp only [WORDS] at this
    omega
  have hhdr : Header.ofWord (PerCpu.setCurrent mem (S.word cpu cl) v (S.word cpu cl)) = _ :=
    ofWord_setCurrent (S.word cpu cl) v
  rw [hv] at hhdr
  have hcurrent : (S.header (PerCpu.setCurrent mem (S.word cpu cl) v) cpu cl).current = v := by
    rw [header, hhdr]
  refine ⟨⟨?_, ?_, by rwa [hcurrent], by rwa [hcurrent]⟩, by rw [size, hcurrent]⟩
  · rw [header, hhdr]
    exact h.begin
  · rw [header, hhdr]
    exact h.end

end Stores

end Slabs

end UniAlloc.PerCpu
