import Mathlib.Tactic.Abel
import UniAlloc.Bitmap.Array
import UniAlloc.Boundary.Range

/-!
# The range tree with permanent tags

`CommutativeTree` keeps `2 * N` tags and sums. A call walks up from both ends of its range;
where a path leaves a node on the side of the range, the sibling of the node lies in the
range. The walk ends when the paths are at siblings, and a second loop goes on to the root.
-/

namespace UniAlloc.BitmapAlloc

/-- The tags and the sums of the nodes. -/
structure CommutativeTree (N : Nat) where
  tag : Nat → U32
  sum : Nat → U32

/-- The variables of a walk: its nodes, the leaves of the range that lie behind each of them,
and the leaves below a node. -/
structure Walk where
  l : Nat
  r : Nat
  lc : U32
  rc : U32
  k : U32

namespace CommutativeTree

variable {N : Nat}

def new : CommutativeTree N := ⟨0, 0⟩

/-- `self.sum[i] += v`. -/
def addSum (self : CommutativeTree N) (i : Nat) (v : U32) : Option (CommutativeTree N) := do
  let sum ← addAssign (2 * N) self.sum i v
  return { self with sum }

/-- `self.tag[i] += v`. -/
def addTag (self : CommutativeTree N) (i : Nat) (v : U32) : Option (CommutativeTree N) := do
  let tag ← addAssign (2 * N) self.tag i v
  return { self with tag }

/-- One side of a round of `add`: if the sibling of `i` lies in the range, its leaves are
added as a whole and counted. -/
def addSide (self : CommutativeTree N) (takes : Bool) (i : Nat) (v c k : U32) :
    Option (CommutativeTree N × U32) :=
  if takes then do
    let self ← self.addSum (i ^^^ 1) (v * k)
    let self ← self.addTag (i ^^^ 1) v
    return (self, c + k)
  else some (self, c)

/-- The body of the first loop of `add`. -/
def addRound (self : CommutativeTree N) (v : U32) (w : Walk) :
    Option (CommutativeTree N × Walk) := do
  let (self, lc) ← self.addSide (w.l % 2 = 0) w.l v w.lc w.k
  let (self, rc) ← self.addSide (w.r % 2 = 1) w.r v w.rc w.k
  let self ← self.addSum (w.l >>> 1) (v * lc)
  let self ← self.addSum (w.r >>> 1) (v * rc)
  return (self, ⟨w.l >>> 1, w.r >>> 1, lc, rc, w.k <<< 1⟩)

/-- The first loop of `add`. A `usize` has no bits left after 64 rounds, and the loop does not
end from there. -/
def addWhile (v : U32) : Nat → CommutativeTree N → Walk → Option (CommutativeTree N × Walk)
  | 0, _, _ => none
  | fuel + 1, self, w =>
      if w.l ^^^ w.r ^^^ 1 ≠ 0 then do
        let (self, w) ← self.addRound v w
        addWhile v fuel self w
      else some (self, w)

/-- The second loop of `add`. -/
def addTail (v : U32) : Nat → CommutativeTree N → Walk → Option (CommutativeTree N)
  | 0, _, _ => none
  | fuel + 1, self, w =>
      if 1 < w.l then do
        let self ← self.addSum w.l (v * w.lc)
        let self ← self.addSum w.r (v * w.rc)
        addTail v fuel self { w with l := w.l >>> 1, r := w.r >>> 1 }
      else some self

/-- The walk from the leaves around `[l, r)`. -/
def start (N l r : Nat) : Walk := ⟨l + N - 1, r + N, 0, 0, 1⟩

/-- Adds `v` to the range `[l, r)`. -/
def add (self : CommutativeTree N) (l r : Nat) (v : U32) : Option (CommutativeTree N) := do
  let (self, w) ← addWhile v 64 self (start N l r)
  addTail v 64 self w

/-- One side of a round of `get_sum`. -/
def sumSide (self : CommutativeTree N) (takes : Bool) (i : Nat) (ans c k : U32) :
    Option (U32 × U32) :=
  if takes then do
    let s ← index (2 * N) self.sum (i ^^^ 1)
    return (ans + s, c + k)
  else some (ans, c)

/-- What the tags of `l` and `r` add to the leaves that have been counted. -/
def sumTags (self : CommutativeTree N) (l r : Nat) (lc rc : U32) : Option U32 := do
  let s ← index (2 * N) self.tag l
  let t ← index (2 * N) self.tag r
  return s * lc + t * rc

/-- The body of the first loop of `get_sum`. -/
def sumRound (self : CommutativeTree N) (ans : U32) (w : Walk) : Option (U32 × Walk) := do
  let (ans, lc) ← self.sumSide (w.l % 2 = 0) w.l ans w.lc w.k
  let (ans, rc) ← self.sumSide (w.r % 2 = 1) w.r ans w.rc w.k
  let s ← self.sumTags (w.l >>> 1) (w.r >>> 1) lc rc
  return (ans + s, ⟨w.l >>> 1, w.r >>> 1, lc, rc, w.k <<< 1⟩)

/-- The first loop of `get_sum`. -/
def sumWhile (self : CommutativeTree N) : Nat → U32 → Walk → Option (U32 × Walk)
  | 0, _, _ => none
  | fuel + 1, ans, w =>
      if w.l ^^^ w.r ^^^ 1 ≠ 0 then do
        let (ans, w) ← self.sumRound ans w
        sumWhile self fuel ans w
      else some (ans, w)

/-- The second loop of `get_sum`. -/
def sumTail (self : CommutativeTree N) : Nat → U32 → Walk → Option U32
  | 0, _, _ => none
  | fuel + 1, ans, w =>
      if 1 < w.l then do
        let s ← self.sumTags w.l w.r w.lc w.rc
        sumTail self fuel (ans + s) { w with l := w.l >>> 1, r := w.r >>> 1 }
      else some ans

/-- The sum of the range `[l, r)`. -/
def getSum (self : CommutativeTree N) (l r : Nat) : Option U32 := do
  let (ans, w) ← self.sumWhile 64 0 (start N l r)
  self.sumTail 64 ans w

/-- The answers to the calls. -/
def run : CommutativeTree N → List Call → Option (CommutativeTree N × List U32)
  | self, [] => some (self, [])
  | self, .add l r v :: calls => do
      let self ← self.add l r v
      run self calls
  | self, .getSum l r :: calls => do
      let s ← self.getSum l r
      let (self, answers) ← run self calls
      return (self, s :: answers)

section Rounds

open Boundary

variable {v : U32} {L R j : Nat}

theorem addSum_of_lt {i : Nat} (self : CommutativeTree N) (v : U32) (h : i < 2 * N) :
    self.addSum i v = some { self with sum := self.sum + Pi.single i v } := by
  rw [addSum, addAssign_of_lt _ _ h, Option.bind_eq_bind, Option.bind_some]
  rfl

theorem addTag_of_lt {i : Nat} (self : CommutativeTree N) (v : U32) (h : i < 2 * N) :
    self.addTag i v = some { self with tag := self.tag + Pi.single i v } := by
  rw [addTag, addAssign_of_lt _ _ h, Option.bind_eq_bind, Option.bind_some]
  rfl

/-- The leaves that have been passed are counted in a word. -/
def count (p : Path) (j : Nat) : U32 := ((p.covered j).card : U32)

/-- The walk after `j` rounds. -/
def walk (L R j : Nat) : Walk :=
  ⟨(left L).node j, (right R).node j, count (left L) j, count (right R) j, 2 ^ j⟩

/-- The tree after `j` rounds of `add`. -/
def added (self : CommutativeTree N) (L R : Nat) (v : U32) (j : Nat) : CommutativeTree N :=
  ⟨self.tag + (left L).marks v j + (right R).marks v j,
    self.sum + (left L).credits v j + (right R).credits v j⟩

theorem count_succ (p : Path) (j : Nat) :
    count p (j + 1) = if p.Takes j then count p j + 2 ^ j else count p j :=
  p.cast_card_covered_succ j

theorem count_of_empty {p : Path} (h : p.covered j = ∅) : count p j = 0 := by
  rw [count, h, Finset.card_empty, Nat.cast_zero]

theorem addSide_spec (self : CommutativeTree N) (p : Path) (v : U32)
    (hlt : p.Takes j → p.sibling j < 2 * N) :
    self.addSide (p.Takes j) (p.node j) v (count p j) (2 ^ j) =
      some (⟨self.tag + if p.Takes j then Pi.single (p.sibling j) v else 0,
        self.sum + if p.Takes j then Pi.single (p.sibling j) (v * 2 ^ j) else 0⟩,
        count p (j + 1)) := by
  rw [addSide, count_succ]
  by_cases htakes : p.Takes j
  · have hi : p.node j ^^^ 1 < 2 * N := hlt htakes
    simp only [htakes, decide_true, if_true]
    rw [addSum_of_lt self _ hi, Option.bind_eq_bind, Option.bind_some, addTag_of_lt _ _ hi]
    rfl
  · simp only [htakes, decide_false, Bool.false_eq_true, if_false, add_zero]

theorem credits_succ (p : Path) (v : U32) (j : Nat) :
    p.credits v (j + 1) = p.credits v j +
      (if p.Takes j then Pi.single (p.sibling j) (v * 2 ^ j) else 0) +
        Pi.single (p.node (j + 1)) (v * count p (j + 1)) :=
  p.credits_succ v j

theorem addRound_spec (self : CommutativeTree N) (v : U32)
    (left_in : (left L).Within N (j + 1)) (right_in : (right R).Within N (j + 1))
    (hl : (left L).node (j + 1) < 2 * N) (hr : (right R).node (j + 1) < 2 * N) :
    (added self L R v j).addRound v (walk L R j) =
      some (added self L R v (j + 1), walk L R (j + 1)) := by
  have hleft : (added self L R v j).addSide ((walk L R j).l % 2 = 0) (walk L R j).l v
      (walk L R j).lc (walk L R j).k = _ :=
    addSide_spec (added self L R v j) (left L) v
      fun htakes => (left_in j (Nat.lt_succ_self j) htakes).lt
  have hright : ∀ self : CommutativeTree N, self.addSide ((walk L R j).r % 2 = 1)
      (walk L R j).r v (walk L R j).rc (walk L R j).k = _ := fun self =>
    addSide_spec self (right R) v fun htakes => (right_in j (Nat.lt_succ_self j) htakes).lt
  have hl' : (walk L R j).l >>> 1 = (left L).node (j + 1) := (left L).node_shiftRight j
  have hr' : (walk L R j).r >>> 1 = (right R).node (j + 1) := (right R).node_shiftRight j
  have hk : (walk L R j).k <<< 1 = 2 ^ (j + 1) := shiftLeft_one j
  rw [addRound, hleft, Option.bind_eq_bind, Option.bind_some]
  dsimp only
  rw [hright, Option.bind_some]
  dsimp only
  rw [hl', hr', hk, addSum_of_lt _ _ hl, Option.bind_eq_bind, Option.bind_some,
    addSum_of_lt _ _ hr, Option.bind_some]
  simp only [added, Path.marks_succ, credits_succ, walk]
  congr 3
  · abel
  · abel

theorem sumSide_spec (self : CommutativeTree N) (p : Path) (ans : U32)
    (hlt : p.Takes j → p.sibling j < 2 * N) :
    self.sumSide (p.Takes j) (p.node j) ans (count p j) (2 ^ j) =
      some (ans + if p.Takes j then self.sum (p.sibling j) else 0, count p (j + 1)) := by
  rw [sumSide, count_succ]
  by_cases htakes : p.Takes j
  · have hi : p.node j ^^^ 1 < 2 * N := hlt htakes
    simp only [htakes, decide_true, if_true]
    rw [index_of_lt _ hi]
    rfl
  · simp only [htakes, decide_false, Bool.false_eq_true, if_false, add_zero]

theorem query_succ (p : Path) (tag sum : Nat → U32) (j : Nat) :
    p.query tag sum (j + 1) = p.query tag sum j +
      (if p.Takes j then sum (p.sibling j) else 0) + tag (p.node (j + 1)) * count p (j + 1) :=
  p.query_succ tag sum j

theorem sumTags_of_lt {l r : Nat} (self : CommutativeTree N) (lc rc : U32) (hl : l < 2 * N)
    (hr : r < 2 * N) : self.sumTags l r lc rc = some (self.tag l * lc + self.tag r * rc) := by
  rw [sumTags, index_of_lt _ hl, index_of_lt _ hr]
  rfl

/-- What has been collected after `j` rounds of `get_sum`. -/
def collected (self : CommutativeTree N) (L R j : Nat) : U32 :=
  (left L).query self.tag self.sum j + (right R).query self.tag self.sum j

theorem sumRound_spec (self : CommutativeTree N)
    (left_in : (left L).Within N (j + 1)) (right_in : (right R).Within N (j + 1))
    (hl : (left L).node (j + 1) < 2 * N) (hr : (right R).node (j + 1) < 2 * N) :
    self.sumRound (collected self L R j) (walk L R j) =
      some (collected self L R (j + 1), walk L R (j + 1)) := by
  have hleft : self.sumSide ((walk L R j).l % 2 = 0) (walk L R j).l (collected self L R j)
      (walk L R j).lc (walk L R j).k = _ :=
    sumSide_spec self (left L) _ fun htakes => (left_in j (Nat.lt_succ_self j) htakes).lt
  have hright : ∀ ans, self.sumSide ((walk L R j).r % 2 = 1) (walk L R j).r ans
      (walk L R j).rc (walk L R j).k = _ := fun ans =>
    sumSide_spec self (right R) ans fun htakes => (right_in j (Nat.lt_succ_self j) htakes).lt
  have hl' : (walk L R j).l >>> 1 = (left L).node (j + 1) := (left L).node_shiftRight j
  have hr' : (walk L R j).r >>> 1 = (right R).node (j + 1) := (right R).node_shiftRight j
  have hk : (walk L R j).k <<< 1 = 2 ^ (j + 1) := shiftLeft_one j
  rw [sumRound, hleft, Option.bind_eq_bind, Option.bind_some]
  dsimp only
  rw [hright, Option.bind_some]
  dsimp only
  rw [hl', hr', hk, sumTags_of_lt _ _ _ hl hr, Option.bind_eq_bind, Option.bind_some]
  simp only [collected, query_succ, walk]
  congr 2
  ring

end Rounds

end CommutativeTree

end UniAlloc.BitmapAlloc
