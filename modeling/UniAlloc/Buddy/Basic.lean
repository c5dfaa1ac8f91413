import Mathlib.Tactic

/-!
# The buddy tree

The tree of `BuddyTree` is a flat array in which the children of the 1-indexed node
`n` are the nodes `2 * n` and `2 * n + 1`. The `order_free` of a node says how large a
block can still be taken below it.
-/

namespace UniAlloc.Buddy

def LEVEL_COUNT : Nat := 23

def blocksInTree (levels : Nat) : Nat := 1 <<< levels - 1

def BLOCKS_IN_TREE : Nat := blocksInTree LEVEL_COUNT

/-- The order of the biggest block under this block plus one, or `0` if it is used. -/
structure Block where
  orderFree : Nat
  deriving DecidableEq

namespace FlatTree

def leftChild (index : Nat) : Nat := index <<< 1

def parent (index : Nat) : Nat := index >>> 1

end FlatTree

/-- The flat array of a tree whose blocks have orders from `BASE_ORDER` to
`BASE_ORDER + MAX_ORDER`. -/
structure BuddyTree (BASE_ORDER MAX_ORDER : Nat) where
  flatBlocks : Nat → Block

namespace BuddyTree

variable {BASE_ORDER MAX_ORDER : Nat}

def block (tree : BuddyTree BASE_ORDER MAX_ORDER) (index : Nat) : Block :=
  tree.flatBlocks index

/-- The array after `order_free` of one block is assigned. -/
def setBlock (tree : BuddyTree BASE_ORDER MAX_ORDER) (index orderFree : Nat) :
    BuddyTree BASE_ORDER MAX_ORDER where
  flatBlocks i := if i = index then ⟨orderFree⟩ else tree.flatBlocks i

/-- `write_bytes`: `count` blocks from `offset` on hold `value`. -/
def writeBytes (tree : BuddyTree BASE_ORDER MAX_ORDER) (offset value count : Nat) :
    BuddyTree BASE_ORDER MAX_ORDER where
  flatBlocks i := if offset ≤ i ∧ i < offset + count then ⟨value⟩ else tree.flatBlocks i

/-- The writes of `new` on x86_64: the offset, the value and the number of blocks of each. -/
def initialWrites : List (Nat × Nat × Nat) :=
  [(0, 23, 1), (1, 22, 2), (3, 21, 4), (7, 20, 8), (15, 19, 16), (31, 18, 32), (63, 17, 64),
    (127, 16, 128), (255, 15, 256), (511, 14, 512), (1023, 13, 1024), (2047, 12, 2048),
    (4095, 11, 4096), (8191, 10, 8192), (16383, 9, 16384), (32767, 8, 32768),
    (65535, 7, 65536), (131071, 6, 131072), (262143, 5, 262144), (524287, 4, 524288),
    (1048575, 3, 1048576), (2097151, 2, 2097152), (4194303, 1, 4194304)]

/-- The tree in the memory handed to it, whatever that memory held. -/
def new (flatBlocks : Nat → Block) : BuddyTree BASE_ORDER MAX_ORDER :=
  initialWrites.foldl (fun tree w => tree.writeBytes w.1 w.2.1 w.2.2) ⟨flatBlocks⟩

/-- One turn of the search: to the left child if it has a block of the order, else to the
right one. The state is the address and the node. -/
def descendStep (tree : BuddyTree BASE_ORDER MAX_ORDER) (desiredOrder level : Nat)
    (at' : Nat × Nat) : Nat × Nat :=
  let leftChildIndex := FlatTree.leftChild at'.2
  let o := (tree.block (leftChildIndex - 1)).orderFree
  if o ≠ 0 ∧ desiredOrder < o then (at'.1, leftChildIndex)
  else (at'.1 + 1 <<< (BASE_ORDER + MAX_ORDER - level - 1), leftChildIndex + 1)

/-- The search after so many levels. -/
def descend (tree : BuddyTree BASE_ORDER MAX_ORDER) (desiredOrder : Nat) : Nat → Nat × Nat
  | 0 => (0, 1)
  | level + 1 => descendStep tree desiredOrder level (descend tree desiredOrder level)

/-- One turn of the way back: the parent gets the larger value of its children. -/
def ascendStep (tree : BuddyTree BASE_ORDER MAX_ORDER) (nodeIndex : Nat) :
    BuddyTree BASE_ORDER MAX_ORDER × Nat :=
  let rightIndex := nodeIndex &&& (2 ^ 64 - 2)
  let nodeIndex := FlatTree.parent nodeIndex
  let left := (tree.block (rightIndex - 1)).orderFree
  let right := (tree.block rightIndex).orderFree
  (tree.setBlock (nodeIndex - 1) (max left right), nodeIndex)

/-- The way back from a node after so many levels. -/
def ascend (tree : BuddyTree BASE_ORDER MAX_ORDER) (nodeIndex : Nat) :
    Nat → BuddyTree BASE_ORDER MAX_ORDER × Nat
  | 0 => (tree, nodeIndex)
  | levels + 1 =>
      let up := ascend tree nodeIndex levels
      ascendStep up.1 up.2

/-- Takes a block of the order and returns its address relative to the tree. -/
def allocate (tree : BuddyTree BASE_ORDER MAX_ORDER) (desiredOrder : Nat) :
    Option Nat × BuddyTree BASE_ORDER MAX_ORDER :=
  let root := tree.block 0
  if root.orderFree = 0 ∨ root.orderFree - 1 < desiredOrder then (none, tree)
  else
    let maxLevel := MAX_ORDER - desiredOrder
    let found := descend tree desiredOrder maxLevel
    let used := tree.setBlock (found.2 - 1) 0
    (some found.1, (ascend used found.2 maxLevel).1)

/-- Updates a block from its children. -/
def updateBlock (tree : BuddyTree BASE_ORDER MAX_ORDER) (nodeIndex order : Nat) :
    BuddyTree BASE_ORDER MAX_ORDER :=
  let leftIndex := FlatTree.leftChild nodeIndex - 1
  let left := (tree.block leftIndex).orderFree
  let right := (tree.block (leftIndex + 1)).orderFree
  if left = order ∧ right = order then tree.setBlock (nodeIndex - 1) (order + 1)
  else tree.setBlock (nodeIndex - 1) (max left right)

/-- The blocks above `index` updated, from the order after `order` on, after so many levels. -/
def updateBlocksAbove (tree : BuddyTree BASE_ORDER MAX_ORDER) (index order : Nat) :
    Nat → BuddyTree BASE_ORDER MAX_ORDER × Nat
  | 0 => (tree, index)
  | levels + 1 =>
      let up := updateBlocksAbove tree index order levels
      let nodeIndex := FlatTree.parent up.2
      (updateBlock up.1 nodeIndex (order + 1 + levels), nodeIndex)

/-- Gives back the block of the order at `ptr`, which is relative to the tree. -/
def deallocate (tree : BuddyTree BASE_ORDER MAX_ORDER) (ptr order : Nat) :
    BuddyTree BASE_ORDER MAX_ORDER :=
  let level := MAX_ORDER - order
  let levelOffset := blocksInTree level
  let index := levelOffset + ptr >>> (order + BASE_ORDER) + 1
  let freed := tree.setBlock (index - 1) (order + 1)
  (updateBlocksAbove freed index order (MAX_ORDER - order)).1

end BuddyTree

/-- A tree and the blocks that are out, each with its address and its order. -/
structure State (BASE_ORDER MAX_ORDER : Nat) where
  tree : BuddyTree BASE_ORDER MAX_ORDER
  live : Finset (Nat × Nat)

inductive Move where
  | allocate (order : Nat)
  | deallocate (ptr order : Nat)

variable {BASE_ORDER MAX_ORDER : Nat}

/-- A call takes a block of any order or returns a live block with its order. -/
inductive Step : State BASE_ORDER MAX_ORDER → Move → State BASE_ORDER MAX_ORDER → Prop where
  | allocated {s order ptr tree} : s.tree.allocate order = (some ptr, tree) →
      Step s (.allocate order) ⟨tree, insert (ptr, order) s.live⟩
  | refused {s order tree} : s.tree.allocate order = (none, tree) →
      Step s (.allocate order) ⟨tree, s.live⟩
  | deallocated {s ptr order} : (ptr, order) ∈ s.live →
      Step s (.deallocate ptr order) ⟨s.tree.deallocate ptr order, s.live.erase (ptr, order)⟩

/-- A new tree, with no block out. -/
def initial (flatBlocks : Nat → Block) : State BASE_ORDER MAX_ORDER :=
  ⟨BuddyTree.new flatBlocks, ∅⟩

end UniAlloc.Buddy
