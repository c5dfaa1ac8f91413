import UniAlloc.Separate.Basic
import UniAlloc.Slab.Config

/-!
# The chunks of a page

The operations on a page, in terms of the chunks whose bits are set. A page has room for
`count` chunks and for no more, so that the bounds that the loops check all stand for
`count`.
-/

namespace UniAlloc.Separate

open Slab (PAGE_SIZE Config)

/-- The chunks lie in the page, and one more would not. -/
structure Tight (c : Config) : Prop extends c.Ok where
  exceeds : PAGE_SIZE * c.pgNum < (c.count + 1) * c.align

theorem le_wordCount (pgCount : Nat) : pgCount ≤ 32 * wordCount pgCount := by
  rw [wordCount]
  omega

variable {c : Config} {page : ObjectPage} {bitfield : List U32} {bitval : U32}
  {base align b i k fuel : Nat} {allocated : List Nat}

theorem Tight.lt_iff (tight : Tight c) (idx : Nat) :
    idx ≤ c.count ∧ idx * c.align + c.align ≤ PAGE_SIZE * c.pgNum ↔ idx < c.count := by
  rw [← Nat.succ_mul]
  constructor
  · rintro ⟨hle, hfits⟩
    apply lt_of_le_of_ne hle
    rintro rfl
    exact absurd tight.exceeds (Nat.not_lt.mpr hfits)
  · intro hlt
    exact ⟨hlt.le, (Nat.mul_le_mul_right _ hlt).trans tight.fits⟩

namespace ObjectPage

theorem fitWord_spec (tight : Tight c) (base align b : Nat) (bitval : U32) {fuel k : Nat}
    (hfuel : k + fuel = 32) :
    (∃ j, k ≤ j ∧ j < 32 ∧ b * 32 + j < c.count ∧ bitval.getLsbD j = false ∧
      alignmentOk (base + (b * 32 + j) * c.align) align ∧
      fitWord base align c.count c.align c.pgNum b bitval fuel k =
        .found (b * 32 + j) (base + (b * 32 + j) * c.align) (bitval ||| 1#32 <<< j)) ∨
    ((∀ j, k ≤ j → j < 32 → b * 32 + j < c.count → bitval.getLsbD j = false →
        ¬alignmentOk (base + (b * 32 + j) * c.align) align) ∧
      (fitWord base align c.count c.align c.pgNum b bitval fuel k = .next ∨
        fitWord base align c.count c.align c.pgNum b bitval fuel k = .stop ∧
          c.count ≤ b * 32 + 32)) := by
  induction fuel generalizing k with
  | zero =>
      refine .inr ⟨?_, .inl rfl⟩
      intro j hk hj
      omega
  | succ fuel ih =>
      have hlimit := tight.lt_iff (b * 32 + k)
      have hstop : ¬b * 32 + k < c.count → ∀ j, k ≤ j → j < 32 → b * 32 + j < c.count →
          bitval.getLsbD j = false → ¬alignmentOk (base + (b * 32 + j) * c.align) align := by
        intro hge j hk _ hlt
        omega
      rw [fitWord]
      dsimp only
      split
      · next hgt => exact .inr ⟨hstop (by omega), .inr ⟨rfl, by omega⟩⟩
      · next hle =>
          split
          · next hgt =>
              have hge : ¬b * 32 + k < c.count := fun hlt => by
                have := (hlimit.mpr hlt).2
                omega
              exact .inr ⟨hstop hge, .inr ⟨rfl, by omega⟩⟩
          · next hfits =>
              have hlt : b * 32 + k < c.count := hlimit.mp ⟨by omega, by omega⟩
              split
              · next hfit =>
                  exact .inl ⟨k, le_rfl, by omega, hlt, by simpa using hfit.2, hfit.1, rfl⟩
              · next hfit =>
                  obtain ⟨j, hkj, hj⟩ | ⟨hall, hend⟩ := ih (k := k + 1) (by omega)
                  · exact .inl ⟨j, by omega, hj⟩
                  · refine .inr ⟨?_, hend⟩
                    intro j hkj hj hcount hclear hok
                    obtain rfl | hne := Nat.eq_or_lt_of_le hkj
                    · exact hfit ⟨hok, by simp [hclear]⟩
                    · exact hall j hne hj hcount hclear hok

/-- Either the first fit is a chunk that is not out, or no such chunk is aligned. -/
theorem firstFit_spec (tight : Tight c) (base align b : Nat) (bitfield : List U32) :
    (∃ i < 32 * bitfield.length, b * 32 + i < c.count ∧ Words.bit bitfield i = false ∧
      alignmentOk (base + (b * 32 + i) * c.align) align ∧
      firstFit base align c.count c.align c.pgNum b bitfield =
        some (b * 32 + i, base + (b * 32 + i) * c.align, Words.setBit bitfield i)) ∨
    (firstFit base align c.count c.align c.pgNum b bitfield = none ∧
      ∀ i < 32 * bitfield.length, b * 32 + i < c.count → Words.bit bitfield i = false →
        ¬alignmentOk (base + (b * 32 + i) * c.align) align) := by
  induction bitfield generalizing b with
  | nil =>
      refine .inr ⟨rfl, ?_⟩
      intro i hi
      exact absurd hi (Nat.not_lt_zero i)
  | cons bitval rest ih =>
      have hones := Words.trailingOnes_le bitval
      have hset : ∀ j < 32, bitval.getLsbD j = false → Words.trailingOnes bitval ≤ j := by
        intro j _ hclear
        by_contra hlt
        rw [Words.getLsbD_of_lt_trailingOnes (by omega)] at hclear
        exact absurd hclear (by decide)
      -- without a fit in this word the search goes on behind it
      have hnext : (∀ j < 32, b * 32 + j < c.count → bitval.getLsbD j = false →
          ¬alignmentOk (base + (b * 32 + j) * c.align) align) →
          (∃ i < 32 * (bitval :: rest).length, b * 32 + i < c.count ∧
            Words.bit (bitval :: rest) i = false ∧
            alignmentOk (base + (b * 32 + i) * c.align) align ∧
            (firstFit base align c.count c.align c.pgNum (b + 1) rest).map
              (fun r => (r.1, r.2.1, bitval :: r.2.2)) =
              some (b * 32 + i, base + (b * 32 + i) * c.align,
                Words.setBit (bitval :: rest) i)) ∨
          ((firstFit base align c.count c.align c.pgNum (b + 1) rest).map
              (fun r => (r.1, r.2.1, bitval :: r.2.2)) = none ∧
            ∀ i < 32 * (bitval :: rest).length, b * 32 + i < c.count →
              Words.bit (bitval :: rest) i = false →
              ¬alignmentOk (base + (b * 32 + i) * c.align) align) := by
        intro hword
        have hshift : ∀ i, (b + 1) * 32 + i = b * 32 + (32 + i) := by
          intro i
          omega
        obtain ⟨i, hi, hcount, hclear, hok, heq⟩ | ⟨heq, hall⟩ := ih (b := b + 1)
        · rw [hshift] at hcount hok heq
          refine .inl ⟨32 + i, by rw [List.length_cons]; omega, hcount, ?_, hok, ?_⟩
          · rw [Words.bit_cons_add (by decide)]
            exact hclear
          · rw [heq, Words.setBit_cons_add (by decide)]
            rfl
        · refine .inr ⟨by rw [heq]; rfl, ?_⟩
          intro i hi hcount hclear
          obtain hlt | hge := Nat.lt_or_ge i 32
          · rw [Words.bit_cons_of_lt hlt] at hclear
            exact hword i hlt hcount hclear
          · obtain ⟨j, rfl⟩ := Nat.exists_eq_add_of_le hge
            rw [Words.bit_cons_add (by decide)] at hclear
            rw [List.length_cons] at hi
            have := hall j (by omega) (by omega) hclear
            rwa [hshift] at this
      rw [firstFit]
      by_cases hmax : bitval = BitVec.allOnes 32
      · simp only [if_pos hmax]
        apply hnext
        intro j hj _ hclear
        rw [hmax, BitVec.getLsbD_allOnes, decide_eq_true hj] at hclear
        exact absurd hclear (by decide)
      · simp only [if_neg hmax]
        obtain ⟨j, -, hj, hcount, hclear, hok, heq⟩ | ⟨hword, heq | ⟨heq, hend⟩⟩ :=
          fitWord_spec tight base align b bitval (Nat.add_sub_cancel' hones)
        · refine .inl ⟨j, by rw [List.length_cons]; omega, hcount, ?_, hok, ?_⟩
          · rw [Words.bit_cons_of_lt hj]
            exact hclear
          · rw [heq, Words.setBit_cons_of_lt hj]
        · rw [heq]
          exact hnext fun j hj hcount hclear => hword j (hset j hj hclear) hj hcount hclear
        · rw [heq]
          refine .inr ⟨rfl, ?_⟩
          intro i _ hcount hclear
          have hlt : i < 32 := by omega
          rw [Words.bit_cons_of_lt hlt] at hclear
          exact hword i (hset i hlt hclear) hlt hcount hclear

/-- An allocation sets the bit of an aligned chunk that was not out, or there is none. -/
theorem allocate_spec (tight : Tight c) (page : ObjectPage) (align : Nat)
    (hlen : bitfield.length = wordCount c.count) (hlt : page.counter < c.count) :
    (∃ i < c.count, Words.bit bitfield i = false ∧
      alignmentOk (page.data + i * c.align) align ∧
      page.allocate align bitfield c.count c.align c.pgNum =
        ({ page with counter := page.counter + 1 }, Words.setBit bitfield i,
          page.data + i * c.align)) ∨
    (page.allocate align bitfield c.count c.align c.pgNum = (page, bitfield, 0) ∧
      ∀ i < c.count, Words.bit bitfield i = false →
        ¬alignmentOk (page.data + i * c.align) align) := by
  have hwords := le_wordCount c.count
  rw [allocate, if_neg (by omega)]
  obtain ⟨i, hi, hcount, hclear, hok, heq⟩ | ⟨heq, hall⟩ :=
    firstFit_spec tight page.data align 0 bitfield
  · rw [Nat.zero_mul, Nat.zero_add] at hcount hok heq
    exact .inl ⟨i, hcount, hclear, hok, by rw [heq]⟩
  · refine .inr ⟨by rw [heq], ?_⟩
    intro i hi hclear
    have := hall i (by omega) (by omega) hclear
    rwa [Nat.zero_mul, Nat.zero_add] at this

/-- The chunks at the positions `b * 32 + i`. -/
def chunksAt (c : Config) (data b : Nat) (is : List Nat) : List Nat :=
  is.map fun i => data + (b * 32 + i) * c.align

/-- The bits `is` of a row were clear, and now they are set as well. -/
structure Takes (before after : List U32) (is : List Nat) : Prop where
  nodup : is.Nodup
  clear : ∀ i ∈ is, Words.bit before i = false
  length : after.length = before.length
  bit : ∀ i, Words.bit after i = (Words.bit before i || decide (i ∈ is))

/-- What one word gives to a batch of `count` chunks, of which `n` have been found. -/
structure WordTakes (c : Config) (count b k n : Nat) (before after : U32) (is : List Nat)
    (done : Bool) : Prop where
  nodup : is.Nodup
  clear : ∀ i ∈ is, k ≤ i ∧ i < 32 ∧ b * 32 + i < c.count ∧ before.getLsbD i = false
  bit : ∀ i < 32, after.getLsbD i = (before.getLsbD i || decide (i ∈ is))
  le : n + is.length ≤ count
  next : done = false → n + is.length < count
  all : n + is.length < count → ∀ i, k ≤ i → i < 32 → b * 32 + i < c.count →
    after.getLsbD i = true
  last : n + is.length < count → done = true → c.count ≤ b * 32 + 32

namespace WordTakes

variable {count b k n : Nat} {before after : U32} {is : List Nat} {done : Bool}

/-- Behind the last bit there is nothing to take. -/
theorem none (hk : 32 ≤ k) (hroom : n < count) : WordTakes c count b k n before before [] false where
  nodup := List.nodup_nil
  clear := nofun
  bit := by simp
  le := hroom.le
  next := fun _ => hroom
  all := by
    intro _ i hk' hi
    omega
  last := nofun

/-- A bit that is set is passed over. -/
theorem skip (takes : WordTakes c count b (k + 1) n before after is done) (hk : k < 32)
    (hset : before.getLsbD k = true) : WordTakes c count b k n before after is done where
  nodup := takes.nodup
  clear := by
    intro i hi
    obtain ⟨hk', hrest⟩ := takes.clear i hi
    exact ⟨by omega, hrest⟩
  bit := takes.bit
  le := takes.le
  next := takes.next
  all := by
    intro hlt i hk' hi hcount
    obtain rfl | hne := Nat.eq_or_lt_of_le hk'
    · rw [takes.bit k hk, hset, Bool.true_or]
    · exact takes.all hlt i hne hi hcount
  last := takes.last

/-- The bits behind the last chunk are not taken. -/
theorem beyond (hge : c.count ≤ b * 32 + k) (hroom : n < count) (hk : k < 32) :
    WordTakes c count b k n before before [] true where
  nodup := List.nodup_nil
  clear := nofun
  bit := by simp
  le := hroom.le
  next := nofun
  all := by
    intro _ i hk' _ hcount
    omega
  last := by
    intro _ _
    omega

theorem getLsbD_set (before : U32) (k : Nat) {i : Nat} (hi : i < 32) :
    (before ||| 1#32 <<< k).getLsbD i = (before.getLsbD i || decide (i = k)) := by
  rw [BitVec.getLsbD_or, Words.getLsbD_one_shiftLeft hi]

/-- The last chunk of the batch. -/
theorem full (hk : k < 32) (hclear : before.getLsbD k = false) (hlt : b * 32 + k < c.count)
    (hroom : n < count) (hfull : count ≤ n + 1) :
    WordTakes c count b k n before (before ||| 1#32 <<< k) [k] true where
  nodup := List.nodup_singleton k
  clear := by
    intro i hi
    obtain rfl := List.mem_singleton.mp hi
    exact ⟨le_rfl, hk, hlt, hclear⟩
  bit := by
    intro i hi
    rw [getLsbD_set before k hi]
    simp
  le := by
    rw [List.length_singleton]
    omega
  next := nofun
  all := by
    rw [List.length_singleton]
    omega
  last := by
    rw [List.length_singleton]
    omega

/-- One chunk, and then what the bits behind it give. -/
theorem take (hk : k < 32) (hclear : before.getLsbD k = false) (hlt : b * 32 + k < c.count)
    (takes : WordTakes c count b (k + 1) (n + 1) (before ||| 1#32 <<< k) after is done) :
    WordTakes c count b k n before after (k :: is) done where
  nodup := by
    refine List.nodup_cons.mpr ⟨fun hmem => ?_, takes.nodup⟩
    have := (takes.clear k hmem).1
    omega
  clear := by
    intro i hi
    obtain rfl | hi := List.mem_cons.mp hi
    · exact ⟨le_rfl, hk, hlt, hclear⟩
    · obtain ⟨hk', hi32, hcount, hbefore⟩ := takes.clear i hi
      rw [getLsbD_set before k hi32, Bool.or_eq_false_iff] at hbefore
      exact ⟨by omega, hi32, hcount, hbefore.1⟩
  bit := by
    intro i hi
    rw [takes.bit i hi, getLsbD_set before k hi, Bool.or_assoc]
    simp [List.mem_cons]
  le := by
    have := takes.le
    rw [List.length_cons]
    omega
  next := by
    intro hdone
    have := takes.next hdone
    rw [List.length_cons]
    omega
  all := by
    rw [List.length_cons]
    intro hlt' i hk' hi hcount
    obtain rfl | hne := Nat.eq_or_lt_of_le hk'
    · rw [takes.bit k hi, getLsbD_set before k hi]
      simp
    · exact takes.all (by omega) i hne hi hcount
  last := by
    rw [List.length_cons]
    intro hlt' hdone
    exact takes.last (by omega) hdone

end WordTakes

theorem takeWord_spec (c : Config) (data count b : Nat) {fuel k : Nat} (hfuel : k + fuel = 32)
    (bitval : U32) {allocated : List Nat} (hroom : allocated.length < count) :
    ∃ done bitval' is,
      takeWord data c.count c.align count b fuel k bitval allocated =
        (done, bitval', allocated ++ chunksAt c data b is) ∧
      WordTakes c count b k allocated.length bitval bitval' is done := by
  have hnothing : ∀ l, l ++ chunksAt c data b [] = l := List.append_nil
  induction fuel generalizing k bitval allocated with
  | zero =>
      refine ⟨false, bitval, [], ?_, .none (by omega) hroom⟩
      rw [takeWord, hnothing]
  | succ fuel ih =>
      have hk : k < 32 := by omega
      rw [takeWord]
      split
      · next hset =>
          obtain ⟨done, bitval', is, heq, takes⟩ := ih (k := k + 1) (by omega) bitval hroom
          exact ⟨done, bitval', is, heq, takes.skip hk hset⟩
      · next hclear =>
          have hclear : bitval.getLsbD k = false := by simpa using hclear
          dsimp only
          split
          · next hge => exact ⟨true, bitval, [], by rw [hnothing], .beyond hge hroom hk⟩
          · next hlt =>
              rw [Nat.not_le] at hlt
              split
              · next hfull =>
                  rw [List.length_append, List.length_singleton] at hfull
                  exact ⟨true, _, [k], rfl, .full hk hclear hlt hroom hfull⟩
              · next hroom' =>
                  rw [Nat.not_le] at hroom'
                  obtain ⟨done, bitval', is, heq, takes⟩ :=
                    ih (k := k + 1) (by omega) (bitval ||| 1#32 <<< k) hroom'
                  rw [List.length_append, List.length_singleton] at takes
                  refine ⟨done, bitval', k :: is, ?_, .take hk hclear hlt takes⟩
                  rw [heq, List.append_assoc]
                  rfl

theorem chunksAt_succ (c : Config) (data b : Nat) (is : List Nat) :
    chunksAt c data (b + 1) is = chunksAt c data b (is.map (32 + ·)) := by
  rw [chunksAt, chunksAt, List.map_map]
  apply List.map_congr_left
  intro i _
  rw [Function.comp_apply, show (b + 1) * 32 + i = b * 32 + (32 + i) by omega]

theorem chunksAt_append (c : Config) (data b : Nat) (is js : List Nat) :
    chunksAt c data b (is ++ js) = chunksAt c data b is ++ chunksAt c data b js :=
  List.map_append

theorem length_chunksAt (c : Config) (data b : Nat) (is : List Nat) :
    (chunksAt c data b is).length = is.length :=
  List.length_map _

/-- A word without clear bits gives nothing. -/
theorem wordTakes_allOnes (c : Config) {count b n : Nat} (hroom : n < count) :
    WordTakes c count b 0 n (BitVec.allOnes 32) (BitVec.allOnes 32) [] false where
  nodup := List.nodup_nil
  clear := nofun
  bit := by simp
  le := hroom.le
  next := fun _ => hroom
  all := by
    intro _ i _ hi _
    rw [BitVec.getLsbD_allOnes, decide_eq_true hi]
  last := nofun

/-- The search begins at the first clear bit of a word. -/
theorem takeStep_spec (c : Config) (data count b : Nat) (bitval : U32) {allocated : List Nat}
    (hroom : allocated.length < count) :
    ∃ done bitval' is,
      (if bitval = BitVec.allOnes 32 then (false, bitval, allocated)
        else takeWord data c.count c.align count b (32 - Words.trailingOnes bitval)
          (Words.trailingOnes bitval) bitval allocated) =
        (done, bitval', allocated ++ chunksAt c data b is) ∧
      WordTakes c count b 0 allocated.length bitval bitval' is done := by
  split
  · next hmax =>
      subst hmax
      refine ⟨false, _, [], ?_, wordTakes_allOnes c hroom⟩
      rw [chunksAt, List.map_nil, List.append_nil]
  · have hones := Words.trailingOnes_le bitval
    obtain ⟨done, bitval', is, heq, takes⟩ :=
      takeWord_spec c data count b (Nat.add_sub_cancel' hones) bitval hroom
    refine ⟨done, bitval', is, heq, takes.nodup, ?_, takes.bit, takes.le, takes.next, ?_,
      takes.last⟩
    · intro i hi
      exact ⟨Nat.zero_le i, (takes.clear i hi).2⟩
    · intro hlt i _ hi hcount
      obtain hbelow | habove := Nat.lt_or_ge i (Words.trailingOnes bitval)
      · rw [takes.bit i hi, Words.getLsbD_of_lt_trailingOnes hbelow, Bool.true_or]
      · exact takes.all hlt i habove hi hcount

/-- The positions in the first word and in the words behind it. -/
theorem mem_append_shift {is is' : List Nat} (hlt : ∀ i ∈ is, i < 32) (i : Nat) :
    i ∈ is ++ is'.map (32 + ·) ↔ if i < 32 then i ∈ is else i - 32 ∈ is' := by
  rw [List.mem_append, List.mem_map]
  split
  · next hi =>
      constructor
      · rintro (h | ⟨j, -, rfl⟩)
        · exact h
        · omega
      · exact .inl
  · next hi =>
      constructor
      · rintro (h | ⟨j, hj, rfl⟩)
        · exact absurd (hlt i h) hi
        · rwa [Nat.add_sub_cancel_left]
      · exact fun h => .inr ⟨i - 32, h, by omega⟩

/-- What the words from `b` on give to a batch of `count` chunks, of which `n` have been
found. -/
structure WordsTake (c : Config) (count b n : Nat) (before after : List U32) (is : List Nat) :
    Prop where
  takes : Takes before after is
  inside : ∀ i ∈ is, i < 32 * before.length ∧ b * 32 + i < c.count
  le : n + is.length ≤ count
  all : n + is.length < count → ∀ i < 32 * before.length, b * 32 + i < c.count →
    Words.bit after i = true

namespace WordTakes

variable {count b n : Nat} {before after : U32} {rest rest' : List U32} {is is' : List Nat}
  {done : Bool}

theorem lt (takes : WordTakes c count b 0 n before after is done) : ∀ i ∈ is, i < 32 :=
  fun i hi => (takes.clear i hi).2.1

theorem clear_cons (takes : WordTakes c count b 0 n before after is done) (rest : List U32) :
    ∀ i ∈ is, Words.bit (before :: rest) i = false := by
  intro i hi
  rw [Words.bit_cons_of_lt (takes.lt i hi), (takes.clear i hi).2.2.2]

/-- The batch ends in this word. -/
theorem stop (takes : WordTakes c count b 0 n before after is true) :
    WordsTake c count b n (before :: rest) (after :: rest) is where
  takes := by
    refine ⟨takes.nodup, takes.clear_cons rest, rfl, fun i => ?_⟩
    rw [Words.bit_cons (by decide), Words.bit_cons (by decide)]
    split
    · next hi => exact takes.bit i hi
    · next hi =>
        have hnot : i ∉ is := fun hmem => hi (takes.lt i hmem)
        rw [decide_eq_false hnot, Bool.or_false]
  inside := by
    intro i hi
    obtain ⟨-, hi32, hcount, -⟩ := takes.clear i hi
    rw [List.length_cons]
    exact ⟨by omega, hcount⟩
  le := takes.le
  all := by
    intro hmore i _ hcount
    have hi : i < 32 := by
      have := takes.last hmore rfl
      omega
    rw [Words.bit_cons_of_lt hi]
    exact takes.all hmore i (Nat.zero_le i) hi hcount

/-- The bits of this word, and then those of the words behind it. -/
theorem takes_cons (takes : WordTakes c count b 0 n before after is done)
    (more : Takes rest rest' is') :
    Takes (before :: rest) (after :: rest') (is ++ is'.map (32 + ·)) where
  nodup := by
    apply List.Nodup.append takes.nodup
    · exact more.nodup.map fun _ _ h => Nat.add_left_cancel h
    · intro i hi hi'
      obtain ⟨j, -, rfl⟩ := List.mem_map.mp hi'
      have := takes.lt _ hi
      omega
  clear := by
    intro i hi
    obtain hi | hi := List.mem_append.mp hi
    · exact takes.clear_cons rest i hi
    · obtain ⟨j, hj, rfl⟩ := List.mem_map.mp hi
      rw [Words.bit_cons_add (by decide)]
      exact more.clear j hj
  length := by rw [List.length_cons, List.length_cons, more.length]
  bit := by
    intro i
    rw [Words.bit_cons (by decide), Words.bit_cons (by decide)]
    simp only [mem_append_shift takes.lt]
    split
    · next hi => exact takes.bit i hi
    · exact more.bit _

/-- The batch goes on in the next word. -/
theorem cons (takes : WordTakes c count b 0 n before after is false)
    (more : WordsTake c count (b + 1) (n + is.length) rest rest' is') :
    WordsTake c count b n (before :: rest) (after :: rest') (is ++ is'.map (32 + ·)) where
  takes := takes.takes_cons more.takes
  inside := by
    intro i hi
    rw [List.length_cons]
    obtain hi | hi := List.mem_append.mp hi
    · obtain ⟨-, hi32, hcount, -⟩ := takes.clear i hi
      exact ⟨by omega, hcount⟩
    · obtain ⟨j, hj, rfl⟩ := List.mem_map.mp hi
      have := more.inside j hj
      omega
  le := by
    have := more.le
    rw [List.length_append, List.length_map]
    omega
  all := by
    rw [List.length_append, List.length_map, List.length_cons]
    intro hmore i hi hcount
    rw [Words.bit_cons (by decide)]
    split
    · next hi32 => exact takes.all (takes.next rfl) i (Nat.zero_le i) hi32 hcount
    · next hi32 => exact more.all (by omega) (i - 32) (by omega) (by omega)

end WordTakes

theorem takeWords_spec (c : Config) (data count b : Nat) (bitfield : List U32)
    (allocated : List Nat) (hroom : allocated.length < count) :
    ∃ bitfield' is,
      takeWords data c.count c.align count b bitfield allocated =
        (bitfield', allocated ++ chunksAt c data b is) ∧
      WordsTake c count b allocated.length bitfield bitfield' is := by
  induction bitfield generalizing b allocated with
  | nil =>
      refine ⟨[], [], ?_, ⟨List.nodup_nil, nofun, rfl, by simp⟩, nofun, hroom.le, ?_⟩
      · rw [takeWords, chunksAt, List.map_nil, List.append_nil]
      · intro _ i hi
        exact absurd hi (Nat.not_lt_zero i)
  | cons bitval rest ih =>
      obtain ⟨done, bitval', is, hword, takes⟩ := takeStep_spec c data count b bitval hroom
      rw [takeWords]
      dsimp only
      rw [hword]
      dsimp only
      cases done with
      | true => exact ⟨bitval' :: rest, is, rfl, takes.stop⟩
      | false =>
          have hlength : (allocated ++ chunksAt c data b is).length =
              allocated.length + is.length := by
            rw [List.length_append, length_chunksAt]
          obtain ⟨rest', is', hrest, more⟩ := ih (b + 1) (allocated ++ chunksAt c data b is)
            (hlength.trans_lt (takes.next rfl))
          rw [hlength] at more
          refine ⟨bitval' :: rest', is ++ is'.map (32 + ·), ?_, takes.cons more⟩
          rw [if_neg Bool.false_ne_true, hrest, chunksAt_append, ← chunksAt_succ,
            List.append_assoc]

/-- A batch takes chunks that were not out, and as many as it wants or as there are. -/
theorem allocateBatch_spec (page : ObjectPage) {count : Nat}
    (hlen : bitfield.length = wordCount c.count) (hlt : page.counter < c.count) (hcount : 0 < count) :
    ∃ bitfield' is,
      page.allocateBatch count bitfield c.count c.align =
        some ({ page with counter := page.counter + is.length }, bitfield',
          is.map fun i => page.data + i * c.align) ∧
      Takes bitfield bitfield' is ∧ (∀ i ∈ is, i < c.count) ∧ is.length ≤ count ∧
      (is.length < count → ∀ i < c.count, Words.bit bitfield' i = true) := by
  have hwords := le_wordCount c.count
  obtain ⟨bitfield', is, heq, takes, hin, hle, hall⟩ :=
    takeWords_spec c page.data count 0 bitfield [] hcount
  have hchunks : chunksAt c page.data 0 is = is.map fun i => page.data + i * c.align := by
    apply List.map_congr_left
    intro i _
    rw [Nat.zero_mul, Nat.zero_add]
  rw [List.nil_append, hchunks] at heq
  rw [List.length_nil, Nat.zero_add] at hle hall
  refine ⟨bitfield', is, ?_, takes, ?_, hle, ?_⟩
  · rw [allocateBatch, if_neg (by omega), heq]
    dsimp only
    rw [List.length_map]
  · intro i hi
    have := (hin i hi).2
    omega
  · intro hmore i hi
    exact hall hmore i (by omega) (by omega)

theorem inPage_iff {data pgNum x : Nat} :
    InPage data pgNum x ↔ data ≤ x ∧ x < data + pgNum * PAGE_SIZE := by
  rw [InPage]
  omega

theorem inPage_chunk (ok : c.Ok) (data : Nat) (hi : i < c.count) :
    InPage data c.pgNum (data + i * c.align) := by
  have hfits := ok.fits
  have hpos := ok.align_pos
  have hnext := Nat.mul_le_mul_right c.align (show i + 1 ≤ c.count from hi)
  rw [Nat.succ_mul] at hnext
  rw [inPage_iff, Nat.mul_comm c.pgNum]
  omega

theorem chunk_num (ok : c.Ok) (data i : Nat) : (data + i * c.align - data) / c.align = i := by
  rw [Nat.add_sub_cancel_left, Nat.mul_div_cancel _ ok.align_pos]

/-- The bits `is` of a row were set, and now they are clear. -/
structure Frees (before after : List U32) (is : List Nat) : Prop where
  set : ∀ i ∈ is, Words.bit before i = true
  length : after.length = before.length
  bit : ∀ i, Words.bit after i = (Words.bit before i && decide (i ∉ is))

theorem deallocate_spec (ok : c.Ok) (hlen : bitfield.length = wordCount c.count)
    (hi : i < c.count) (hset : Words.bit bitfield i = true) (hpos : 0 < page.counter) :
    page.deallocate (page.data + i * c.align) bitfield c.align =
        some ({ page with counter := page.counter - 1 }, Words.clearBit bitfield i) ∧
      Frees bitfield (Words.clearBit bitfield i) [i] := by
  have hword : i / 32 < bitfield.length := by
    have := le_wordCount c.count
    omega
  refine ⟨?_, ?_, Words.length_clearBit _ _, ?_⟩
  · rw [deallocate, chunk_num ok, if_pos ⟨Nat.le_add_right _ _, hword, hset, hpos⟩]
  · intro j hj
    exact List.mem_singleton.mp hj ▸ hset
  · intro j
    rw [Words.bit_clearBit (by decide) hword]
    by_cases h : j = i <;> simp [h]

/-- The loop frees what lies in the page, up to the first address that does not. -/
theorem freeWhile_spec (ok : c.Ok) (data : Nat) {is rest : List Nat} (nodup : is.Nodup)
    (hin : ∀ i ∈ is, i < c.count) (hstop : ∀ x ∈ rest.head?, ¬InPage data c.pgNum x)
    (hlen : bitfield.length = wordCount c.count) (hset : ∀ i ∈ is, Words.bit bitfield i = true)
    (ans : Nat) :
    ∃ bitfield', freeWhile data c.align c.pgNum ((is.map fun i => data + i * c.align) ++ rest)
        bitfield ans = some (bitfield', ans + is.length) ∧ Frees bitfield bitfield' is := by
  induction is generalizing bitfield ans with
  | nil =>
      refine ⟨bitfield, ?_, nofun, rfl, by simp⟩
      cases rest with
      | nil => rfl
      | cons x rest =>
          have hout : ¬InPage data c.pgNum x := hstop x rfl
          rw [List.map_nil, List.nil_append, freeWhile, if_neg hout]
          rfl
  | cons i is ih =>
      obtain ⟨hnot, nodup⟩ := List.nodup_cons.mp nodup
      have hi := hin i List.mem_cons_self
      have hbit := hset i List.mem_cons_self
      have hword : i / 32 < bitfield.length := by
        have := le_wordCount c.count
        omega
      have hclear := fun j => Words.bit_clearBit (l := bitfield) (j := j) (by decide) hword
      obtain ⟨bitfield', heq, frees⟩ := ih nodup (fun j hj => hin j (List.mem_cons_of_mem i hj))
        ((Words.length_clearBit bitfield i).trans hlen) (fun j hj => by
          have hne : j ≠ i := fun e => hnot (e ▸ hj)
          rw [hclear, if_neg hne]
          exact hset j (List.mem_cons_of_mem i hj)) (ans + 1)
      refine ⟨bitfield', ?_, hset, frees.length.trans (Words.length_clearBit _ _), ?_⟩
      · rw [List.map_cons, List.cons_append, freeWhile, if_pos (inPage_chunk ok data hi)]
        dsimp only
        rw [chunk_num ok, if_pos ⟨hword, hbit⟩, heq, List.length_cons]
        congr 2
        omega
      · intro j
        rw [frees.bit, hclear]
        by_cases h : j = i <;> simp [h]

/-- Whatever the addresses are, the loop looks at those up to the first outside the page. -/
theorem freeWhile_eq_some {data pgAlign pgNum ans ans' : Nat} {l : List Nat}
    {bitfield' : List U32}
    (heq : freeWhile data pgAlign pgNum l bitfield ans = some (bitfield', ans')) :
    ans' = ans + (l.takeWhile (InPage data pgNum ·)).length ∧
      bitfield'.length = bitfield.length := by
  induction l generalizing bitfield ans with
  | nil =>
      obtain ⟨rfl, rfl⟩ := Prod.mk.inj (Option.some.inj heq)
      exact ⟨rfl, rfl⟩
  | cons x l ih =>
      rw [freeWhile] at heq
      split at heq
      · next hin =>
          dsimp only at heq
          split at heq
          · obtain ⟨hans, hlength⟩ := ih heq
            rw [Words.length_clearBit] at hlength
            rw [List.takeWhile_cons, if_pos (by simpa using hin), List.length_cons]
            exact ⟨by omega, hlength⟩
          · exact absurd heq nofun
      · next hout =>
          obtain ⟨rfl, rfl⟩ := Prod.mk.inj (Option.some.inj heq)
          rw [List.takeWhile_cons, if_neg (by simpa using hout)]
          exact ⟨rfl, rfl⟩

theorem deallocateBatch_spec (ok : c.Ok) (page : ObjectPage) {is rest : List Nat} (nodup : is.Nodup)
    (hin : ∀ i ∈ is, i < c.count) (hstop : ∀ x ∈ rest.head?, ¬InPage page.data c.pgNum x)
    (hlen : bitfield.length = wordCount c.count) (hset : ∀ i ∈ is, Words.bit bitfield i = true)
    (hle : is.length ≤ page.counter) :
    ∃ bitfield',
      page.deallocateBatch ((is.map fun i => page.data + i * c.align) ++ rest) bitfield c.align
        c.pgNum = some ({ page with counter := page.counter - is.length }, bitfield',
          is.length) ∧ Frees bitfield bitfield' is := by
  obtain ⟨bitfield', heq, frees⟩ := freeWhile_spec ok page.data nodup hin hstop hlen hset 0
  rw [Nat.zero_add] at heq
  refine ⟨bitfield', ?_, frees⟩
  rw [deallocateBatch, heq, Option.bind_eq_bind, Option.bind_some]
  exact if_pos hle

end ObjectPage

end UniAlloc.Separate
