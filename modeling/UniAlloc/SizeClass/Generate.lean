import Mathlib.Data.BitVec
import Mathlib.Data.Nat.Prime.Basic
import Mathlib.Order.Bounds.Basic

/-!
# Generated numbers of pages

The macro `generate_num_pages` computes how many pages a run of each class gets: as
many as make the run end with its last chunk. A panic of the macro is `none`.
-/

namespace UniAlloc

/-- `usize` where the macro runs. -/
abbrev Usize := BitVec 64

namespace NumPages

section Parity

variable {a b : Nat}

/-- Halving an even number loses no divisor of an odd one. -/
theorem gcd_half_left (ha : a % 2 = 0) (hb : b % 2 = 1) : (a / 2).gcd b = a.gcd b := by
  have htwo : Nat.Coprime 2 b := Nat.coprime_two_left.mpr (Nat.odd_iff.mpr hb)
  have hdouble : 2 * (a / 2) = a := by omega
  have hcancel := htwo.gcd_mul_left_cancel (a / 2)
  rw [hdouble] at hcancel
  exact hcancel.symm

theorem gcd_half_both (ha : a % 2 = 0) (hb : b % 2 = 0) :
    2 * (a / 2).gcd (b / 2) = a.gcd b := by
  have ha' : 2 * (a / 2) = a := by omega
  have hb' : 2 * (b / 2) = b := by omega
  rw [← Nat.gcd_mul_left, ha', hb']

/-- The difference of two odd numbers is even. -/
theorem gcd_half_sub (ha : a % 2 = 1) (hb : b % 2 = 1) (h : a ≤ b) :
    ((b - a) / 2).gcd a = a.gcd b := by
  rw [gcd_half_left (by omega) ha, Nat.gcd_comm, Nat.gcd_sub_self_right h]

end Parity

theorem toNat_half (a : Usize) : (a >>> 1).toNat = a.toNat / 2 := by
  rw [BitVec.toNat_ushiftRight, Nat.shiftRight_eq_div_pow, Nat.pow_one]

theorem toNat_half_lt {a : Usize} (ha : a ≠ 0) : (a >>> 1).toNat < a.toNat := by
  have hpos : 0 < a.toNat := Nat.pos_of_ne_zero fun h => ha (BitVec.eq_of_toNat_eq h)
  rw [toNat_half]
  omega

theorem toNat_parity (a : Usize) : (a &&& (1 : Usize)).toNat = a.toNat % 2 := by
  rw [BitVec.toNat_and]
  exact Nat.and_one_is_mod a.toNat

theorem toNat_half_sub {a b : Usize} (h : a ≤ b) :
    ((b - a) >>> 1).toNat = (b.toNat - a.toNat) / 2 := by
  rw [toNat_half, BitVec.toNat_sub_of_le h]

theorem toNat_half_sub_lt {a b : Usize} (hb : b ≠ 0) (h : a ≤ b) :
    ((b - a) >>> 1).toNat < b.toNat := by
  have hlt := toNat_half_lt hb
  rw [toNat_half] at hlt
  rw [toNat_half_sub h]
  omega

/-- The last arm of the `match` is `unreachable!`. -/
def gcd (a b : Usize) : Option Usize :=
  if a = b then some b
  else if a = 0 then some b
  else if b = 0 then some a
  else
    match (a &&& (1 : Usize)).toNat, (b &&& (1 : Usize)).toNat with
    | 0, 1 => gcd (a >>> 1) b
    | 1, 0 => gcd (b >>> 1) a
    | 0, 0 => (gcd (a >>> 1) (b >>> 1)).map fun (g : Usize) => g <<< 1
    | 1, 1 => if a ≤ b then gcd ((b - a) >>> 1) a else gcd ((a - b) >>> 1) b
    | _, _ => none
termination_by a.toNat + b.toNat
decreasing_by
  · exact Nat.add_lt_add_right (toNat_half_lt ‹_›) _
  · exact (Nat.add_lt_add_right (toNat_half_lt ‹_›) _).trans_eq (Nat.add_comm _ _)
  · exact Nat.add_lt_add (toNat_half_lt ‹_›) (toNat_half_lt ‹_›)
  · exact (Nat.add_lt_add_right (toNat_half_sub_lt ‹_› ‹_›) _).trans_eq (Nat.add_comm _ _)
  · exact Nat.add_lt_add_right (toNat_half_sub_lt ‹_› (BitVec.le_of_lt (BitVec.not_le.mp ‹_›))) _

/-- The recursion returns, and its answer is the greatest common divisor. The arms are those
of the `match`, in its order. -/
theorem gcd_spec (a b : Usize) : ∃ g, gcd a b = some g ∧ g.toNat = a.toNat.gcd b.toNat := by
  induction a, b using gcd.induct with
  | case1 b =>
      refine ⟨b, ?_, (Nat.gcd_self _).symm⟩
      rw [gcd, if_pos rfl]
  | case2 b hne =>
      refine ⟨b, ?_, (Nat.gcd_zero_left _).symm⟩
      rw [gcd, if_neg hne, if_pos rfl]
  | case3 a hne ha =>
      refine ⟨a, ?_, (Nat.gcd_zero_right _).symm⟩
      rw [gcd, if_neg hne, if_neg ha, if_pos rfl]
  | case4 a b hne ha hb hb2 ha2 ih =>
      obtain ⟨g, hg, hval⟩ := ih
      refine ⟨g, ?_, ?_⟩
      · rw [gcd, if_neg hne, if_neg ha, if_neg hb, ha2, hb2]
        exact hg
      · rw [toNat_parity] at ha2 hb2
        rw [hval, toNat_half, gcd_half_left ha2 hb2]
  | case5 a b hne ha hb hb2 ha2 ih =>
      obtain ⟨g, hg, hval⟩ := ih
      refine ⟨g, ?_, ?_⟩
      · rw [gcd, if_neg hne, if_neg ha, if_neg hb, ha2, hb2]
        exact hg
      · rw [toNat_parity] at ha2 hb2
        rw [hval, toNat_half, gcd_half_left hb2 ha2, Nat.gcd_comm]
  | case6 a b hne ha hb hb2 ha2 ih =>
      obtain ⟨g, hg, hval⟩ := ih
      refine ⟨g <<< 1, ?_, ?_⟩
      · rw [gcd, if_neg hne, if_neg ha, if_neg hb, ha2, hb2]
        simp only [hg, Option.map_some]
      · rw [toNat_parity] at ha2 hb2
        have hdouble : 2 * g.toNat = a.toNat.gcd b.toNat := by
          rw [hval, toNat_half, toNat_half, gcd_half_both ha2 hb2]
        -- the divisor is at most `a`, so that no bit is shifted out
        have hpos : 0 < a.toNat := Nat.pos_of_ne_zero fun h => ha (BitVec.eq_of_toNat_eq h)
        have hle : a.toNat.gcd b.toNat ≤ a.toNat := Nat.gcd_le_left _ hpos
        have hlt : 2 * g.toNat < 2 ^ 64 := by
          rw [hdouble]
          exact hle.trans_lt a.isLt
        rw [BitVec.toNat_shiftLeft, Nat.shiftLeft_eq, Nat.pow_one, Nat.mul_comm,
          Nat.mod_eq_of_lt hlt, hdouble]
  | case7 a b hne ha hb hb2 ha2 hle ih =>
      obtain ⟨g, hg, hval⟩ := ih
      refine ⟨g, ?_, ?_⟩
      · rw [gcd, if_neg hne, if_neg ha, if_neg hb, ha2, hb2]
        exact (if_pos hle).trans hg
      · rw [toNat_parity] at ha2 hb2
        rw [hval, toNat_half_sub hle, gcd_half_sub ha2 hb2 hle]
  | case8 a b hne ha hb hb2 ha2 hle ih =>
      obtain ⟨g, hg, hval⟩ := ih
      have hge : b ≤ a := BitVec.le_of_lt (BitVec.not_le.mp hle)
      refine ⟨g, ?_, ?_⟩
      · rw [gcd, if_neg hne, if_neg ha, if_neg hb, ha2, hb2]
        exact (if_neg hle).trans hg
      · rw [toNat_parity] at ha2 hb2
        rw [hval, toNat_half_sub hge, gcd_half_sub hb2 ha2 hge, Nat.gcd_comm]
  | case9 a b hne ha hb h01 h10 h00 h11 =>
      -- the parities of two numbers are covered by the four arms
      obtain ha2 | ha2 := Nat.mod_two_eq_zero_or_one a.toNat <;>
      obtain hb2 | hb2 := Nat.mod_two_eq_zero_or_one b.toNat <;>
      rw [← toNat_parity] at ha2 hb2
      · exact absurd hb2 (h00 ha2)
      · exact absurd hb2 (h01 ha2)
      · exact absurd hb2 (h10 ha2)
      · exact absurd hb2 (h11 ha2)

/-- A product that overflows is a panic, and so is a division by zero. -/
def lcm (a b : Usize) : Option Usize := do
  let divisor ← gcd a b
  if a.toNat * b.toNat < 2 ^ 64 ∧ divisor ≠ 0 then some (a * b / divisor) else none

def PAGE_SIZE : Usize := 0x1000

/-- The `num_pages` of a class of size `cl`. -/
def numPages (cl : Usize) : Option Usize := do
  let multiple ← lcm PAGE_SIZE cl
  some (multiple / PAGE_SIZE)

/-- The least number of pages that a whole number of chunks fills. -/
theorem isLeast_lcm_div {cl : Nat} (hcl : 1 ≤ cl) {page : Nat} (hpage : 1 ≤ page) :
    IsLeast {n | 1 ≤ n ∧ cl ∣ n * page} (page.lcm cl / page) := by
  have hdvd : page ∣ page.lcm cl := Nat.dvd_lcm_left page cl
  refine ⟨⟨?_, ?_⟩, ?_⟩
  · exact Nat.div_pos (Nat.le_of_dvd (Nat.lcm_pos hpage hcl) hdvd) hpage
  · rw [Nat.div_mul_cancel hdvd]
    exact Nat.dvd_lcm_right page cl
  · rintro n ⟨hn, hdvd'⟩
    refine Nat.div_le_of_le_mul ?_
    rw [Nat.mul_comm]
    exact Nat.le_of_dvd (Nat.mul_pos hn hpage) (Nat.lcm_dvd (Nat.dvd_mul_left _ _) hdvd')

theorem lcm_spec {a b : Usize} (ha : 1 ≤ a.toNat) (hfits : a.toNat * b.toNat < 2 ^ 64) :
    ∃ m, lcm a b = some m ∧ m.toNat = a.toNat.lcm b.toNat := by
  obtain ⟨g, hg, hval⟩ := gcd_spec a b
  have hpos : 0 < g.toNat := by
    rw [hval]
    exact Nat.gcd_pos_of_pos_left _ ha
  have hne : g ≠ 0 := by
    rintro rfl
    exact absurd hpos (Nat.lt_irrefl 0)
  refine ⟨a * b / g, ?_, ?_⟩
  · rw [lcm, hg]
    exact if_pos ⟨hfits, hne⟩
  · rw [BitVec.toNat_udiv, BitVec.toNat_mul, Nat.mod_eq_of_lt hfits, hval]
    rfl

theorem numPages_spec {cl : Usize} (hcl : 1 ≤ cl.toNat) (hfits : 4096 * cl.toNat < 2 ^ 64) :
    ∃ n, numPages cl = some n ∧ IsLeast {n | 1 ≤ n ∧ cl.toNat ∣ n * 4096} n.toNat := by
  obtain ⟨m, hm, hval⟩ := lcm_spec (a := PAGE_SIZE) (by decide) hfits
  refine ⟨m / PAGE_SIZE, ?_, ?_⟩
  · rw [numPages, hm]
    rfl
  · rw [BitVec.toNat_udiv, hval]
    exact isLeast_lcm_div hcl (by decide)

/-- The tokens that a macro is called with. -/
inductive TokenTree where
  | group (stream : List TokenTree)
  | ident (text : String)
  | punct (ch : Char)
  | literal (text : String)

/-- The digits of `usize::from_str`. -/
def parseDigits : List Char → Nat → Option Usize
  | [], value => some (BitVec.ofNat 64 value)
  | c :: digits, value =>
      let value := value * 10 + (c.toNat - 48)
      if c.isDigit ∧ value < 2 ^ 64 then parseDigits digits value else none

/-- `usize::from_str`: at least one digit, after an optional sign. -/
def parseUsize (text : String) : Option Usize :=
  match text.toList with
  | [] => none
  | '+' :: digits => if digits = [] then none else parseDigits digits 0
  | digits => parseDigits digits 0

/-- The `loop`: the entries of the table as text, and their number. -/
def generateLoop : List TokenTree → String → Nat → Option (String × Nat)
  | [], vals, idx => some (vals, idx)
  | .literal l :: it, vals, idx => do
      let cl ← parseUsize l
      let num_pages ← numPages cl
      generateLoop it (vals ++ toString num_pages.toNat ++ ", ") (idx + 1)
  | .punct _ :: it, vals, idx => generateLoop it vals idx
  | _ :: _, _, _ => none

/-- The text that is parsed as the output of the macro. -/
def tableText (sz : Nat) (vals : String) : String :=
  "\n            const SIZE_CLASS_PAGES: [usize; " ++ toString sz ++ "] = [\n                " ++
    vals ++ "\n            ];\n        "

def generateNumPages (input : List TokenTree) : Option String := do
  let (vals, sz) ← generateLoop input "" 0
  some (tableText sz vals)

/-- The classes that the tokens list. -/
def classes : List TokenTree → Option (List Usize)
  | [] => some []
  | .literal l :: it => do
      let cl ← parseUsize l
      let rest ← classes it
      some (cl :: rest)
  | .punct _ :: it => classes it
  | _ :: _ => none

/-- The entries of a table of numbers of pages. -/
def entries (counts : List Usize) : String :=
  counts.foldl (fun vals num_pages => vals ++ toString num_pages.toNat ++ ", ") ""

/-- A class whose pages the macro can compute. -/
def Fits (cl : Usize) : Prop := 1 ≤ cl.toNat ∧ 4096 * cl.toNat < 2 ^ 64

instance (cl : Usize) : Decidable (Fits cl) := inferInstanceAs (Decidable (_ ∧ _))

/-- `n` pages are the shortest run that chunks of `cl` bytes fill. -/
def Fills (cl n : Usize) : Prop := IsLeast {n | 1 ≤ n ∧ cl.toNat ∣ n * 4096} n.toNat

theorem generateLoop_spec {input : List TokenTree} {cls : List Usize}
    (hcls : classes input = some cls) (fits : ∀ cl ∈ cls, Fits cl) (vals : String) (idx : Nat) :
    ∃ counts, List.Forall₂ Fills cls counts ∧
      generateLoop input vals idx = some (counts.foldl
        (fun vals num_pages => vals ++ toString num_pages.toNat ++ ", ") vals,
        idx + counts.length) := by
  induction input using classes.induct generalizing cls vals idx with
  | case1 =>
      obtain rfl : [] = cls := Option.some.inj hcls
      exact ⟨[], .nil, rfl⟩
  | case2 l it ih =>
      rw [classes] at hcls
      obtain ⟨cl, hcl, htail⟩ := Option.bind_eq_some_iff.mp hcls
      obtain ⟨rest, hrest, heq⟩ := Option.bind_eq_some_iff.mp htail
      obtain rfl : cl :: rest = cls := Option.some.inj heq
      obtain ⟨hfits, hfits'⟩ := List.forall_mem_cons.mp fits
      obtain ⟨n, hn, hleast⟩ := numPages_spec hfits.1 hfits.2
      obtain ⟨counts, hfills, hloop⟩ :=
        ih hrest hfits' (vals ++ toString n.toNat ++ ", ") (idx + 1)
      refine ⟨n :: counts, .cons hleast hfills, ?_⟩
      rw [generateLoop, hcl, Option.bind_eq_bind, Option.bind_some, hn, Option.bind_some, hloop,
        List.foldl_cons, List.length_cons, Nat.add_right_comm, Nat.add_assoc]
  | case3 ch it ih => exact ih hcls fits vals idx
  | case4 t it hlit hpunct =>
      cases t with
      | literal l => exact (hlit l rfl).elim
      | punct ch => exact (hpunct ch rfl).elim
      | group stream => exact absurd hcls (Option.some_ne_none _).symm
      | ident text => exact absurd hcls (Option.some_ne_none _).symm

/-- The recursion finds every greatest common divisor, and the table has the shortest run
without an unusable tail for every class. -/
theorem generated_counts :
    (∀ a b : Usize, ∃ g, gcd a b = some g ∧ g.toNat = a.toNat.gcd b.toNat) ∧
    ∀ input cls, classes input = some cls → (∀ cl ∈ cls, Fits cl) →
      ∃ counts, List.Forall₂ Fills cls counts ∧
        generateNumPages input = some (tableText cls.length (entries counts)) := by
  refine ⟨gcd_spec, fun input cls hcls fits => ?_⟩
  obtain ⟨counts, hfills, hloop⟩ := generateLoop_spec hcls fits "" 0
  refine ⟨counts, hfills, ?_⟩
  rw [generateNumPages, hloop, hfills.length_eq, Nat.zero_add]
  rfl

/-- Two classes of `mi_size_class`. -/
theorem generated_counts_two :
    (∀ a b : Usize, ∃ g, gcd a b = some g ∧ g.toNat = a.toNat.gcd b.toNat) ∧
      ∃ counts, List.Forall₂ Fills [80, 40960] counts ∧
        generateNumPages [.literal "80", .punct ',', .literal "40960"] =
          some (tableText (List.length ([80, 40960] : List Usize)) (entries counts)) :=
  ⟨generated_counts.1, generated_counts.2 [.literal "80", .punct ',', .literal "40960"]
    [80, 40960] rfl (by simp [Fits])⟩

end NumPages

end UniAlloc
