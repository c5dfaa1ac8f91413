import Mathlib.Tactic.Abel
import UniAlloc.Bitmap.Array
import UniAlloc.Boundary.Range

/-!
# The range tree over bits

`CommutativeBitmap` has `8 * N` leaves. Their sums are bits, those of the inner nodes are
bytes, and both lie behind one index. `add` walks up from the leaves, `get_sum` from the
nodes around `N`. The profiles turn overflow checks off, so that bytes wrap.
-/

namespace UniAlloc.BitmapAlloc

/-- A `u8`. -/
abbrev U8 := BitVec 8

/-- A bitmap of `N` bytes. -/
structure RawBitmap (N : Nat) where
  bits : Nat → U8

/-- The sums of `8 * N` inner nodes, and the bits of as many leaves. -/
structure CompressedSum (N : Nat) where
  sum : Nat → U8
  bmp : RawBitmap N

/-- The tags and the sums of the nodes. -/
structure CommutativeBitmap (N : Nat) where
  tag : Nat → U8
  sum : CompressedSum N

variable {N : Nat}

namespace RawBitmap

def new : RawBitmap N := ⟨0⟩

def getBit (self : RawBitmap N) (n : Nat) : Option Bool :=
  if n / 8 < N then some (self.bits (n / 8) &&& 1 <<< (n % 8) ≠ 0) else none

end RawBitmap

namespace CompressedSum

def new : CompressedSum N := ⟨0, .new⟩

def get (self : CompressedSum N) (idx : Nat) : Option U8 :=
  if idx < N * 8 then some (self.sum idx)
  else do
    let bit ← self.bmp.getBit (idx - N * 8)
    return (BitVec.ofBool bit).setWidth 8

/-- Behind what is done to a leaf stands `unreachable!()`. -/
def add (self : CompressedSum N) (idx : Nat) (val : U8) : Option (CompressedSum N) :=
  if idx < N * 8 then
    some { self with sum := Function.update self.sum idx (self.sum idx + val) }
  else none

end CompressedSum

namespace CommutativeBitmap

/-- The variables of a walk: its nodes, the leaves of the range that lie behind each of them,
and the leaves below a node. -/
structure Walk where
  l : Nat
  r : Nat
  lc : U8
  rc : U8
  k : U8

def new : CommutativeBitmap N := ⟨0, .new⟩

/-- `self.sum.add(i, v)`. -/
def addSum (self : CommutativeBitmap N) (i : Nat) (v : U8) : Option (CommutativeBitmap N) := do
  let sum ← self.sum.add i v
  return { self with sum }

/-- `self.tag[i] += v`. -/
def addTag (self : CommutativeBitmap N) (i : Nat) (v : U8) : Option (CommutativeBitmap N) :=
  if i < N * 16 then
    some { self with tag := Function.update self.tag i (self.tag i + v) }
  else none

/-- One side of a round of `add`. -/
def addSide (self : CommutativeBitmap N) (takes : Bool) (i : Nat) (v c k : U8) :
    Option (CommutativeBitmap N × U8) :=
  if takes then do
    let self ← self.addSum (i ^^^ 1) (v * k)
    let self ← self.addTag (i ^^^ 1) v
    return (self, c + k)
  else some (self, c)

/-- The body of the loop of `add`. -/
def addRound (self : CommutativeBitmap N) (v : U8) (w : Walk) :
    Option (CommutativeBitmap N × Walk) := do
  let (self, lc) ← self.addSide (w.l % 2 = 0) w.l v w.lc w.k
  let (self, rc) ← self.addSide (w.r % 2 = 1) w.r v w.rc w.k
  let self ← self.addSum (w.l >>> 1) (v * lc)
  let self ← self.addSum (w.r >>> 1) (v * rc)
  return (self, ⟨w.l >>> 1, w.r >>> 1, lc, rc, w.k <<< 1⟩)

/-- The loop of `add`. A `usize` has no bits left after 64 rounds, and the loop does not end
from there. -/
def addWhile (v : U8) : Nat → CommutativeBitmap N → Walk → Option (CommutativeBitmap N × Walk)
  | 0, _, _ => none
  | fuel + 1, self, w =>
      if w.l ^^^ w.r ^^^ 1 ≠ 0 then do
        let (self, w) ← self.addRound v w
        addWhile v fuel self w
      else some (self, w)

/-- Adds `v` to the range `[l, r)`. -/
def add (self : CommutativeBitmap N) (l r : Nat) (v : U8) : Option (CommutativeBitmap N) :=
  if v ≤ 1 then do
    let (self, _) ← addWhile v 64 self ⟨l + N * 8 - 1, r + N * 8, 0, 0, 1⟩
    return self
  else none

/-- `self.tag[i]`. -/
def getTag (self : CommutativeBitmap N) (i : Nat) : Option U8 :=
  if i < N * 16 then some (self.tag i) else none

/-- One side of a round of `get_sum`. -/
def sumSide (self : CommutativeBitmap N) (takes : Bool) (i : Nat) (ans c k : U8) :
    Option (U8 × U8) :=
  if takes then do
    let s ← self.sum.get (i ^^^ 1)
    return (ans + s, c + k)
  else some (ans, c)

/-- What the tags of `l` and `r` add to the leaves that have been counted. -/
def sumTags (self : CommutativeBitmap N) (l r : Nat) (lc rc : U8) : Option U8 := do
  let s ← self.getTag l
  let t ← self.getTag r
  return s * lc + t * rc

/-- The body of the first loop of `get_sum`. -/
def sumRound (self : CommutativeBitmap N) (ans : U8) (w : Walk) : Option (U8 × Walk) := do
  let (ans, lc) ← self.sumSide (w.l % 2 = 0) w.l ans w.lc w.k
  let (ans, rc) ← self.sumSide (w.r % 2 = 1) w.r ans w.rc w.k
  let s ← self.sumTags (w.l >>> 1) (w.r >>> 1) lc rc
  return (ans + s, ⟨w.l >>> 1, w.r >>> 1, lc, rc, w.k <<< 1⟩)

/-- The first loop of `get_sum`. -/
def sumWhile (self : CommutativeBitmap N) : Nat → U8 → Walk → Option (U8 × Walk)
  | 0, _, _ => none
  | fuel + 1, ans, w =>
      if w.l ^^^ w.r ^^^ 1 ≠ 0 then do
        let (ans, w) ← self.sumRound ans w
        sumWhile self fuel ans w
      else some (ans, w)

/-- The second loop of `get_sum`. -/
def sumTail (self : CommutativeBitmap N) : Nat → U8 → Walk → Option U8
  | 0, _, _ => none
  | fuel + 1, ans, w =>
      if 1 < w.l then do
        let s ← self.sumTags w.l w.r w.lc w.rc
        sumTail self fuel (ans + s) { w with l := w.l >>> 1, r := w.r >>> 1 }
      else some ans

/-- The sum of the range `[l, r)`. -/
def getSum (self : CommutativeBitmap N) (l r : Nat) : Option U8 := do
  let (ans, w) ← self.sumWhile 64 0 ⟨l + N - 1, r + N, 0, 0, 1⟩
  self.sumTail 64 ans w

/-- The calls `add(l, r, 1)` and `get_sum(l, r)`. -/
inductive Access where
  | add (l r : Nat)
  | getSum (l r : Nat)

/-- The range of the call lies in the bitmap. -/
def Access.In (N : Nat) : Access → Prop
  | .add l r | .getSum l r => l ≤ r ∧ r ≤ 8 * N

/-- The ranges that are added. -/
def additions : List Access → List (Nat × Nat)
  | [] => []
  | .add l r :: calls => (l, r) :: additions calls
  | .getSum _ _ :: calls => additions calls

/-- The answers to the calls. -/
def run : CommutativeBitmap N → List Access → Option (CommutativeBitmap N × List U8)
  | self, [] => some (self, [])
  | self, .add l r :: calls => do
      let self ← self.add l r 1
      run self calls
  | self, .getSum l r :: calls => do
      let s ← self.getSum l r
      let (self, answers) ← run self calls
      return (self, s :: answers)

/-- How many positions of each range that is asked for have been covered. -/
def covers : Finset Nat → List Access → List Nat
  | _, [] => []
  | covered, .add l r :: calls => covers (covered ∪ Finset.Ico l r) calls
  | covered, .getSum l r :: calls => (covered ∩ Finset.Ico l r).card :: covers covered calls

/-- Whatever is asked for between the additions, no call panics and the answers are right. -/
def Right (N : Nat) (adds : List (Nat × Nat)) : Prop :=
  ∀ calls, additions calls = adds → (∀ c ∈ calls, c.In N) → (∀ n ∈ covers ∅ calls, n < 256) →
    ∃ bitmap answers, (new : CommutativeBitmap N).run calls = some (bitmap, answers) ∧
      answers.map BitVec.toNat = covers ∅ calls

section Additions

open Boundary

variable {l r L R j J fuel i : Nat} {self other : CommutativeBitmap N} {v : U8} {w : Walk}

theorem addSum_eq_some (hadd : self.addSum i v = some other) :
    i < N * 8 ∧
      other = { self with sum := { self.sum with sum := self.sum.sum + Pi.single i v } } := by
  rw [addSum, CompressedSum.add, Option.bind_eq_bind] at hadd
  split at hadd
  · next hi =>
      rw [Option.bind_some] at hadd
      refine ⟨hi, (Option.some.inj hadd).symm.trans ?_⟩
      congr 2
      exact update_add _ _ _
  · exact absurd hadd nofun

theorem addTag_eq_some (hadd : self.addTag i v = some other) :
    other = { self with tag := self.tag + Pi.single i v } := by
  rw [addTag] at hadd
  split at hadd
  · refine (Option.some.inj hadd).symm.trans ?_
    congr 1
    exact update_add _ _ _
  · exact absurd hadd nofun

/-- The leaves that have been passed are counted in a byte. -/
def count (p : Path) (j : Nat) : U8 := ((p.covered j).card : U8)

/-- The walk after `j` rounds. -/
def walk (L R j : Nat) : Walk :=
  ⟨(left L).node j, (right R).node j, count (left L) j, count (right R) j, 2 ^ j⟩

/-- The bitmap after `j` rounds of the first `add`. -/
def added (N L R j : Nat) : CommutativeBitmap N :=
  ⟨(left L).marks 1 j + (right R).marks 1 j,
    ⟨(left L).credits 1 j + (right R).credits 1 j, .new⟩⟩

/-- The nodes that a round of `add` writes are inner nodes. -/
structure Inner (N L R j : Nat) : Prop where
  left : (left L).Takes j → (left L).sibling j < N * 8
  right : (right R).Takes j → (right R).sibling j < N * 8
  node : (Boundary.right R).node (j + 1) < N * 8

theorem addSide_eq_some {p : Path} {c : U8}
    (hadd : self.addSide (p.Takes j) (p.node j) 1 (count p j) (2 ^ j) = some (other, c)) :
    (p.Takes j → p.sibling j < N * 8) ∧
      other = ⟨self.tag + if p.Takes j then Pi.single (p.sibling j) 1 else 0,
        { self.sum with
          sum := self.sum.sum + if p.Takes j then Pi.single (p.sibling j) (1 * 2 ^ j) else 0 }⟩ ∧
      c = count p (j + 1) := by
  rw [count, p.cast_card_covered_succ]
  rw [addSide] at hadd
  by_cases htakes : p.Takes j
  · simp only [htakes, decide_true, if_true] at hadd ⊢
    obtain ⟨b, hsum, hadd⟩ := Option.bind_eq_some_iff.mp hadd
    obtain ⟨b', htag, hadd⟩ := Option.bind_eq_some_iff.mp hadd
    obtain ⟨hi, rfl⟩ := addSum_eq_some hsum
    obtain rfl := addTag_eq_some htag
    obtain ⟨rfl, rfl⟩ := Prod.mk.inj (Option.some.inj hadd)
    exact ⟨fun _ => hi, rfl, rfl⟩
  · simp only [htakes, decide_false, Bool.false_eq_true, if_false, add_zero] at hadd ⊢
    obtain ⟨rfl, rfl⟩ := Prod.mk.inj (Option.some.inj hadd)
    exact ⟨False.elim, rfl, rfl⟩

theorem addRound_eq_some (hadd : (added N L R j).addRound 1 (walk L R j) = some (self, w)) :
    Inner N L R j ∧ self = added N L R (j + 1) ∧ w = walk L R (j + 1) := by
  obtain ⟨⟨b, lc⟩, hleft, hadd⟩ := Option.bind_eq_some_iff.mp hadd
  obtain ⟨⟨b', rc⟩, hright, hadd⟩ := Option.bind_eq_some_iff.mp hadd
  obtain ⟨c, hl, hadd⟩ := Option.bind_eq_some_iff.mp hadd
  obtain ⟨c', hr, hadd⟩ := Option.bind_eq_some_iff.mp hadd
  obtain ⟨left_in, rfl, rfl⟩ := addSide_eq_some (p := left L) hleft
  obtain ⟨right_in, rfl, rfl⟩ := addSide_eq_some (p := right R) hright
  obtain ⟨-, rfl⟩ := addSum_eq_some hl
  obtain ⟨hnode, rfl⟩ := addSum_eq_some hr
  obtain ⟨rfl, rfl⟩ := Prod.mk.inj (Option.some.inj hadd)
  have hl' : (walk L R j).l >>> 1 = (left L).node (j + 1) := (left L).node_shiftRight j
  have hr' : (walk L R j).r >>> 1 = (right R).node (j + 1) := (right R).node_shiftRight j
  have hk : (walk L R j).k <<< 1 = 2 ^ (j + 1) := shiftLeft_one j
  rw [hr'] at hnode
  refine ⟨⟨left_in, right_in, hnode⟩, ?_, ?_⟩
  · rw [hl', hr']
    simp only [added, Path.marks_succ, Path.credits_succ, count]
    rw [add_add_add_comm, ← add_assoc]
    congr 2
    abel
  · rw [hl', hr', hk]
    rfl

theorem addWhile_eq_some (hadd : addWhile 1 fuel (added N L R j) (walk L R j) = some (self, w)) :
    ∃ J, j ≤ J ∧ self = added N L R J ∧ (left L).node J ^^^ (right R).node J ^^^ 1 = 0 ∧
      ∀ m, j ≤ m → m < J → (left L).node m ^^^ (right R).node m ^^^ 1 ≠ 0 ∧ Inner N L R m := by
  induction fuel generalizing j with
  | zero => exact absurd hadd nofun
  | succ fuel ih =>
      rw [addWhile] at hadd
      split at hadd
      · next hne =>
          obtain ⟨⟨b, w'⟩, hround, hadd⟩ := Option.bind_eq_some_iff.mp hadd
          obtain ⟨inner, rfl, rfl⟩ := addRound_eq_some hround
          obtain ⟨J, hJ, rfl, hmeet, hall⟩ := ih hadd
          refine ⟨J, by omega, rfl, hmeet, ?_⟩
          intro m hjm hm
          obtain rfl | hlt := Nat.eq_or_lt_of_le hjm
          · exact ⟨hne, inner⟩
          · exact hall m hlt hm
      · next heq =>
          obtain ⟨rfl, -⟩ := Prod.mk.inj (Option.some.inj hadd)
          exact ⟨j, Nat.le_refl j, rfl, not_not.mp heq, fun m hjm hm => absurd hm (by omega)⟩

/-- The walk of an addition that has not panicked. -/
structure Walks (N L R J : Nat) : Prop extends Meets L R J where
  inner : ∀ j < J, Inner N L R j

theorem add_eq_some (hN : 0 < N) (hlr : l ≤ r)
    (hadd : (new : CommutativeBitmap N).add l r 1 = some self) :
    ∃ J, Walks N (l + N * 8 - 1) (r + N * 8) J ∧
      self = added N (l + N * 8 - 1) (r + N * 8) J := by
  have hstart : walk (l + N * 8 - 1) (r + N * 8) 0 = ⟨l + N * 8 - 1, r + N * 8, 0, 0, 1⟩ := by
    simp [walk, count, Path.covered, left, right]
  have hnew : added N (l + N * 8 - 1) (r + N * 8) 0 = new := by
    simp only [added, Path.marks, Path.credits, add_zero]
    rfl
  rw [add, if_pos (by decide), ← hstart, ← hnew] at hadd
  obtain ⟨⟨b, w⟩, hwhile, hadd⟩ := Option.bind_eq_some_iff.mp hadd
  obtain rfl : b = self := Option.some.inj hadd
  obtain ⟨J, -, rfl, hmeet, hall⟩ := addWhile_eq_some hwhile
  have apart : Apart (l + N * 8 - 1) (r + N * 8) J := fun j hj => (hall j (Nat.zero_le j) hj).1
  have hlt := apart.node_lt (by omega) (Nat.le_refl J)
  obtain ⟨even, meet⟩ := (siblings_iff hlt).mp hmeet
  exact ⟨J, ⟨⟨apart, even, meet⟩, fun j hj => (hall j (Nat.zero_le j) hj).2⟩, rfl⟩

end Additions

end CommutativeBitmap

end UniAlloc.BitmapAlloc
