import UniAlloc.Slab.Basic

/-!
# The radix tree with wide keys

A tree for keys of 128 bits. Every head node consumes 21 bits of a key, and the bottom
node the last 23. Nodes are generic in the nodes below them, and so is the proof that a
tree is a map: it goes up one level at a time. It is assumed that nodes can be mapped.
-/

namespace UniAlloc.Radix128

open Slab (asUsize)

/-- Nodes of the tree. `zeroed` is a freshly mapped node. A panic is `none`. -/
class Tree128Node (V : Type) where
  zeroed : V
  insert : V → Nat → Int → Int → Option V
  remove : V → Nat → Int → Option V
  getMut : V → Nat → Option Int

structure RadixBottom128Node where
  nodes : Nat → Int

namespace RadixBottom128Node

/-- `((mask & k) >> 105) as usize` with `mask = !((1_u128 << 105) - 1)`. -/
def index (k : Nat) : Nat := (k &&& (2 ^ 128 - 2 ^ 105)) >>> 105

/-- `for i in 0..n { self.nodes[idx + i] = v }`. -/
def fill (idx : Nat) (v : Int) : Nat → RadixBottom128Node → Option RadixBottom128Node
  | 0, node => some node
  | n + 1, node => do
      let node ← fill idx v n node
      if idx + n < 2 ^ 23 then some ⟨Function.update node.nodes (idx + n) v⟩ else none

instance : Tree128Node RadixBottom128Node where
  zeroed := ⟨fun _ => 0⟩
  insert node k v n := fill (index k) v (asUsize n) node
  remove node k n := fill (index k) 0 (asUsize n) node
  getMut node k := if index k < 2 ^ 23 then some (node.nodes (index k)) else none

end RadixBottom128Node

structure RadixNode128Head (V : Type) where
  nodes : Nat → Option V

namespace RadixNode128Head

/-- `((mask & k) >> 107) as usize` with `mask = !((1_u128 << 107) - 1)`. -/
def index (k : Nat) : Nat := (k &&& (2 ^ 128 - 2 ^ 107)) >>> 107

/-- `k << 21` on `u128`. -/
def nextKey (k : Nat) : Nat := (k <<< 21) % 2 ^ 128

variable {V : Type} [Tree128Node V]

/-- The node below index `idx` for an insertion, mapped if it is missing. -/
def child (head : RadixNode128Head V) (idx : Nat) : V :=
  (head.nodes idx).getD Tree128Node.zeroed

/-- The head with `node` below index `idx`. -/
def setChild (head : RadixNode128Head V) (idx : Nat) (node : V) : RadixNode128Head V :=
  ⟨Function.update head.nodes idx (some node)⟩

instance : Tree128Node (RadixNode128Head V) where
  zeroed := ⟨fun _ => none⟩
  insert head k v n := do
    let node ← Tree128Node.insert (head.child (index k)) (nextKey k) v n
    some (head.setChild (index k) node)
  remove head k n :=
    match head.nodes (index k) with
    | none => some head
    | some node => do
        let node ← Tree128Node.remove node (nextKey k) n
        some (head.setChild (index k) node)
  getMut head k :=
    match head.nodes (index k) with
    | none => some (-1)
    | some node => Tree128Node.getMut node (nextKey k)

end RadixNode128Head

/-- The tree whose nodes consume all bits of a key. -/
abbrev RadixTree : Type :=
  RadixNode128Head (RadixNode128Head (RadixNode128Head (RadixNode128Head
    (RadixNode128Head RadixBottom128Node))))

/-- The range of `n` keys from `p` ends with the bottom node of `p` at the latest. -/
def Fits (p n : Nat) : Prop := p % 2 ^ 23 + n ≤ 2 ^ 23

instance (p n : Nat) : Decidable (Fits p n) := inferInstanceAs (Decidable (_ ≤ _))

/-- What happens to the keys below the bottom node of `p`: `f` is told whether the key is in
the range. -/
def alter (m : Nat → Option Int) (p n : Nat) (f : Bool → Option Int → Option Int) :
    Nat → Option Int :=
  fun q => if q / 2 ^ 23 = p / 2 ^ 23 then f (decide (p ≤ q ∧ q < p + n)) (m q) else m q

/-- The keys of the range get `v`, and the others below a new bottom node `0`. -/
def put (v : Int) (inRange : Bool) (old : Option Int) : Option Int :=
  some (if inRange then v else old.getD 0)

/-- The keys of the range that have a value get `0`. -/
def wipe (inRange : Bool) (old : Option Int) : Option Int :=
  old.map fun v => if inRange then 0 else v

/-- A node as a map from the upper `bits` bits of the keys. Keys without a bottom node have no
entry. -/
class NodeMap (V : Type) where
  bits : Nat
  entry : V → Nat → Option Int

open NodeMap (bits entry)

/-- The upper bits of a key that a node consumes. -/
def path (V : Type) [NodeMap V] (k : Nat) : Nat := k * 2 ^ bits V / 2 ^ 128

/-- A call on `n` keys from `p` changes the map by `f`, or panics. -/
def Alters {V : Type} [NodeMap V] (node : V) (p n : Nat) (f : Bool → Option Int → Option Int)
    (panics : Prop) (res : Option V) : Prop :=
  (¬panics ∧ ∃ node', res = some node' ∧
    ∀ q < 2 ^ bits V, entry node' q = alter (entry node) p n f q) ∨ (panics ∧ res = none)

/-- The calls do to a node what they do to its map. -/
class LawfulNode (V : Type) [Tree128Node V] [NodeMap V] : Prop where
  low : 23 ≤ bits V
  zeroed : ∀ q, entry (Tree128Node.zeroed : V) q = if bits V = 23 then some 0 else none
  getMut : ∀ (node : V) (k : Nat), k < 2 ^ 128 →
    Tree128Node.getMut node k = some ((entry node (path V k)).getD (-1))
  insert : ∀ (node : V) (k : Nat) (v n : Int), k < 2 ^ 128 →
    Alters node (path V k) (asUsize n) (put v) (¬Fits (path V k) (asUsize n))
      (Tree128Node.insert node k v n)
  remove : ∀ (node : V) (k : Nat) (n : Int), k < 2 ^ 128 →
    Alters node (path V k) (asUsize n) wipe
      (¬Fits (path V k) (asUsize n) ∧ entry node (path V k) ≠ none)
      (Tree128Node.remove node k n)

theorem path_lt {V : Type} [NodeMap V] {k : Nat} (hk : k < 2 ^ 128) : path V k < 2 ^ bits V := by
  rw [path, Nat.div_lt_iff_lt_mul (Nat.two_pow_pos 128), Nat.mul_comm]
  exact Nat.mul_lt_mul_of_pos_left hk (Nat.two_pow_pos _)

/-- The upper `d` bits of a key, as they are masked and shifted. -/
theorem upper_bits {k s d : Nat} (hk : k < 2 ^ (s + d)) :
    (k &&& (2 ^ (s + d) - 2 ^ s)) >>> s = k / 2 ^ s := by
  have hpos : 0 < 2 ^ s := Nat.two_pow_pos s
  have hmask : 2 ^ (s + d) - 2 ^ s = 2 ^ s * (2 ^ d - 1) := by
    rw [Nat.pow_add, Nat.mul_sub, Nat.mul_one]
  have hlt : k / 2 ^ s < 2 ^ d := by
    rw [Nat.div_lt_iff_lt_mul hpos, Nat.mul_comm, ← Nat.pow_add]
    exact hk
  rw [Nat.shiftRight_and_distrib, Nat.shiftRight_eq_div_pow, Nat.shiftRight_eq_div_pow, hmask,
    Nat.mul_div_cancel_left _ hpos, Nat.and_two_pow_sub_one_eq_mod, Nat.mod_eq_of_lt hlt]

namespace RadixBottom128Node

theorem index_eq {k : Nat} (hk : k < 2 ^ 128) : index k = k / 2 ^ 105 :=
  upper_bits (s := 105) (d := 23) hk

instance : NodeMap RadixBottom128Node where
  bits := 23
  entry node q := some (node.nodes q)

theorem path_eq (k : Nat) : path RadixBottom128Node k = k / 2 ^ 105 := by
  have hbits : path RadixBottom128Node k = k * 2 ^ 23 / (2 ^ 105 * 2 ^ 23) := rfl
  rw [hbits, Nat.mul_div_mul_right _ _ (Nat.two_pow_pos 23)]

/-- The loop of a call either stays in the node or panics. -/
theorem fill_spec {idx : Nat} (hidx : idx < 2 ^ 23) (v : Int) (n : Nat)
    (node : RadixBottom128Node) :
    (idx + n ≤ 2 ^ 23 ∧ ∃ node', fill idx v n node = some node' ∧
      ∀ i, node'.nodes i = if idx ≤ i ∧ i < idx + n then v else node.nodes i) ∨
    (2 ^ 23 < idx + n ∧ fill idx v n node = none) := by
  induction n with
  | zero => exact .inl ⟨by omega, node, rfl, fun i => (if_neg (by omega)).symm⟩
  | succ n ih =>
      obtain ⟨hfits, node', hfill, hnode⟩ | ⟨hbeyond, hnone⟩ := ih
      · obtain hroom | hend := Nat.lt_or_ge (idx + n) (2 ^ 23)
        · refine .inl ⟨hroom, ⟨Function.update node'.nodes (idx + n) v⟩, ?_, fun i => ?_⟩
          · rw [fill, hfill]
            exact if_pos hroom
          · by_cases hlast : i = idx + n
            · subst hlast
              simp only [Function.update_self]
              rw [if_pos (by omega)]
            · simp only [Function.update_of_ne hlast, hnode]
              simp only [show (idx ≤ i ∧ i < idx + n) ↔ (idx ≤ i ∧ i < idx + (n + 1)) by omega]
        · refine .inr ⟨by omega, ?_⟩
          rw [fill, hfill]
          exact if_neg (Nat.not_lt.mpr hend)
      · refine .inr ⟨by omega, ?_⟩
        rw [fill, hnone]
        rfl

/-- A fill, as a change of the map. -/
theorem fill_alters {k : Nat} (hk : k < 2 ^ 128) (v : Int) (n : Nat) (node : RadixBottom128Node)
    {f : Bool → Option Int → Option Int}
    (hf : ∀ inRange old, f inRange (some old) = some (if inRange then v else old)) :
    Alters node (path RadixBottom128Node k) n f (¬Fits (path RadixBottom128Node k) n)
      (fill (index k) v n node) := by
  have hpath : path RadixBottom128Node k < 2 ^ 23 := path_lt hk
  rw [index_eq hk, ← path_eq]
  generalize path RadixBottom128Node k = p at hpath
  have hfits : Fits p n ↔ p + n ≤ 2 ^ 23 := by
    rw [Fits, Nat.mod_eq_of_lt hpath]
  obtain ⟨hle, node', hfill, hnode⟩ | ⟨hlt, hnone⟩ := fill_spec hpath v n node
  · refine .inl ⟨not_not.mpr (hfits.mpr hle), node', hfill, fun q hq => ?_⟩
    have hq' : q < 2 ^ 23 := hq
    have hsame : q / 2 ^ 23 = p / 2 ^ 23 := by omega
    rw [alter, if_pos hsame]
    show some (node'.nodes q) = f _ (some (node.nodes q))
    rw [hf, hnode]
    simp only [decide_eq_true_eq]
  · exact .inr ⟨fun h => by have := hfits.mp h; omega, hnone⟩

instance : LawfulNode RadixBottom128Node where
  low := le_rfl
  zeroed _ := rfl
  getMut node k hk := by
    have hpath : path RadixBottom128Node k < 2 ^ 23 := path_lt hk
    have hindex : index k = path RadixBottom128Node k := by rw [index_eq hk, path_eq]
    show (if index k < 2 ^ 23 then some (node.nodes (index k)) else none) = _
    rw [hindex, if_pos hpath]
    rfl
  insert node k v n hk := fill_alters hk v (asUsize n) node fun _ _ => rfl
  remove node k n hk := by
    have hmapped : entry node (path RadixBottom128Node k) ≠ none := Option.some_ne_none _
    rw [and_iff_left hmapped]
    exact fill_alters hk 0 (asUsize n) node fun _ _ => rfl

end RadixBottom128Node

/-- Two keys lie below one bottom node if they do below one node of the next level. -/
theorem same_bottom_iff {w : Nat} (hw : 23 ≤ w) (p q : Nat) : q / 2 ^ 23 = p / 2 ^ 23 ↔
    q / 2 ^ w = p / 2 ^ w ∧ q % 2 ^ w / 2 ^ 23 = p % 2 ^ w / 2 ^ 23 := by
  obtain ⟨d, rfl⟩ := Nat.exists_eq_add_of_le hw
  rw [Nat.pow_add, ← Nat.div_div_eq_div_mul, ← Nat.div_div_eq_div_mul,
    Nat.mod_mul_right_div_self, Nat.mod_mul_right_div_self]
  exact Nat.ext_div_mod_iff _ _ _

theorem inRange_iff {w p q : Nat} (n : Nat) (htop : q / w = p / w) :
    (p ≤ q ∧ q < p + n) ↔ (p % w ≤ q % w ∧ q % w < p % w + n) := by
  have hp := Nat.div_add_mod p w
  have hq := Nat.div_add_mod q w
  rw [htop] at hq
  omega

theorem fits_mod {w : Nat} (hw : 23 ≤ w) (p n : Nat) : Fits (p % 2 ^ w) n ↔ Fits p n := by
  rw [Fits, Fits, Nat.mod_mod_of_dvd p (Nat.pow_dvd_pow 2 hw)]

namespace RadixNode128Head

theorem index_eq {k : Nat} (hk : k < 2 ^ 128) : index k = k / 2 ^ 107 :=
  upper_bits (s := 107) (d := 21) hk

theorem nextKey_lt (k : Nat) : nextKey k < 2 ^ 128 := Nat.mod_lt _ (Nat.two_pow_pos 128)

variable {V : Type} [NodeMap V]

instance : NodeMap (RadixNode128Head V) where
  bits := bits V + 21
  entry head q := (head.nodes (q / 2 ^ bits V)).bind fun node => entry node (q % 2 ^ bits V)

/-- The head consumes the upper bits of the path, and the node below it the others. -/
theorem path_split {k : Nat} (hk : k < 2 ^ 128) :
    path (RadixNode128Head V) k / 2 ^ bits V = index k ∧
      path (RadixNode128Head V) k % 2 ^ bits V = path V (nextKey k) := by
  have hpos : 0 < 2 ^ bits V := Nat.two_pow_pos _
  have hbelow : path V (nextKey k) < 2 ^ bits V := path_lt (nextKey_lt k)
  have hindex : k * 2 ^ 21 / 2 ^ 128 = index k := by
    rw [index_eq hk, show (2 : Nat) ^ 128 = 2 ^ 107 * 2 ^ 21 by decide,
      Nat.mul_div_mul_right _ _ (Nat.two_pow_pos 21)]
  have hnext : k * 2 ^ 21 % 2 ^ 128 = nextKey k := by
    rw [nextKey, Nat.shiftLeft_eq]
  have hpath : path (RadixNode128Head V) k = path V (nextKey k) + index k * 2 ^ bits V := by
    have hbits : path (RadixNode128Head V) k = k * 2 ^ 21 * 2 ^ bits V / 2 ^ 128 := by
      show k * 2 ^ (bits V + 21) / 2 ^ 128 = _
      rw [Nat.pow_add, Nat.mul_comm (2 ^ bits V), Nat.mul_assoc]
    rw [hbits, ← Nat.div_add_mod (k * 2 ^ 21) (2 ^ 128), hindex, hnext, Nat.add_mul, Nat.mul_assoc,
      Nat.mul_add_div (Nat.two_pow_pos 128), Nat.add_comm, path]
  rw [hpath, Nat.add_mul_div_right _ _ hpos, Nat.div_eq_of_lt hbelow, Nat.zero_add,
    Nat.add_mul_mod_self_right, Nat.mod_eq_of_lt hbelow]
  exact ⟨rfl, rfl⟩

/-- The entries below one index. -/
theorem entry_of_index {head : RadixNode128Head V} {q idx : Nat} (h : q / 2 ^ bits V = idx) :
    entry head q = (head.nodes idx).bind fun node => entry node (q % 2 ^ bits V) := by
  rw [← h]
  rfl

/-- What a call changes in the node below the head, it changes in the head. -/
theorem alters_of_child [Tree128Node V] [LawfulNode V] {head : RadixNode128Head V} {node : V}
    {k n : Nat} {f : Bool → Option Int → Option Int} {panics : Prop} {res : Option V}
    (hk : k < 2 ^ 128) (halters : Alters node (path V (nextKey k)) n f panics res)
    (old : ∀ q < 2 ^ bits V, ∀ b, f b (entry node q) =
      f b ((head.nodes (index k)).bind fun node => entry node q))
    (others : ∀ q < 2 ^ bits V, q / 2 ^ 23 ≠ path V (nextKey k) / 2 ^ 23 →
      entry node q = (head.nodes (index k)).bind fun node => entry node q) :
    Alters head (path (RadixNode128Head V) k) n f panics
      (res.bind fun node => some (head.setChild (index k) node)) := by
  have hpos : 0 < 2 ^ bits V := Nat.two_pow_pos _
  obtain ⟨htop, hlow⟩ := path_split (V := V) hk
  obtain ⟨returns, node', rfl, hentry⟩ | ⟨hpanics, rfl⟩ := halters
  · refine .inl ⟨returns, _, rfl, fun q _ => ?_⟩
    have hbottom := same_bottom_iff (LawfulNode.low (V := V)) (path (RadixNode128Head V) k) q
    have hbelow : q % 2 ^ bits V < 2 ^ bits V := Nat.mod_lt _ hpos
    rw [alter]
    by_cases hq : q / 2 ^ bits V = index k
    · have hset : entry (head.setChild (index k) node') q = entry node' (q % 2 ^ bits V) := by
        rw [entry_of_index hq]
        simp only [setChild, Function.update_self, Option.bind_some]
      rw [hset, hentry _ hbelow, alter, entry_of_index hq]
      rw [hlow, and_iff_right (hq.trans htop.symm)] at hbottom
      by_cases hsame : q % 2 ^ bits V / 2 ^ 23 = path V (nextKey k) / 2 ^ 23
      · rw [if_pos hsame, if_pos (hbottom.mpr hsame), old _ hbelow, ← hlow]
        simp only [inRange_iff n (hq.trans htop.symm)]
      · rw [if_neg hsame, if_neg fun h => hsame (hbottom.mp h), others _ hbelow hsame]
    · rw [if_neg fun h => hq ((hbottom.mp h).1.trans htop)]
      show (Function.update head.nodes (index k) (some node') _).bind _ = _
      rw [Function.update_of_ne hq]
      rfl
  · exact .inr ⟨hpanics, rfl⟩

instance [Tree128Node V] [LawfulNode V] : LawfulNode (RadixNode128Head V) where
  low := (LawfulNode.low (V := V)).trans (Nat.le_add_right _ _)
  zeroed q := by
    have hlow := LawfulNode.low (V := V)
    have hbits : bits (RadixNode128Head V) ≠ 23 := by
      show bits V + 21 ≠ 23
      omega
    rw [if_neg hbits]
    rfl
  getMut head k hk := by
    obtain ⟨htop, hlow⟩ := path_split (V := V) hk
    rw [entry_of_index htop, hlow]
    show (match head.nodes (index k) with
      | none => some (-1)
      | some node => Tree128Node.getMut node (nextKey k)) = _
    cases head.nodes (index k) with
    | none => rfl
    | some node => exact LawfulNode.getMut node _ (nextKey_lt k)
  insert head k v n hk := by
    obtain ⟨-, hlow⟩ := path_split (V := V) hk
    have halters := LawfulNode.insert (head.child (index k)) (nextKey k) v n (nextKey_lt k)
    rw [← fits_mod (LawfulNode.low (V := V)) (path (RadixNode128Head V) k), hlow]
    refine alters_of_child hk halters (fun q _ b => ?_) fun q hq hne => ?_
    · rw [child]
      cases head.nodes (index k) with
      | none =>
          rw [Option.getD_none, LawfulNode.zeroed]
          split <;> rfl
      | some node => rfl
    · rw [child]
      cases head.nodes (index k) with
      | none =>
          -- a new bottom node has no other keys
          have hpath : path V (nextKey k) < 2 ^ bits V := path_lt (nextKey_lt k)
          have hbits : bits V ≠ 23 := by
            intro h
            rw [h] at hq hpath
            omega
          rw [Option.getD_none, LawfulNode.zeroed, if_neg hbits]
          rfl
      | some node => rfl
  remove head k n hk := by
    obtain ⟨htop, hlow⟩ := path_split (V := V) hk
    rw [← fits_mod (LawfulNode.low (V := V)) (path (RadixNode128Head V) k), hlow,
      entry_of_index htop, hlow]
    show Alters head _ _ wipe _ (match head.nodes (index k) with
      | none => some head
      | some node => (Tree128Node.remove node (nextKey k) n).bind fun node =>
          some (head.setChild (index k) node))
    cases hnode : head.nodes (index k) with
    | none =>
        refine .inl ⟨fun h => h.2 rfl, head, rfl, fun q _ => ?_⟩
        rw [alter]
        split
        · next hsame =>
            have hq := ((same_bottom_iff (LawfulNode.low (V := V)) _ _).mp hsame).1.trans htop
            rw [entry_of_index hq, hnode]
            rfl
        · rfl
    | some node =>
        refine alters_of_child hk (LawfulNode.remove node (nextKey k) n (nextKey_lt k))
          (fun q _ b => ?_) fun q _ _ => ?_
        · rw [hnode, Option.bind_some]
        · rw [hnode, Option.bind_some]

end RadixNode128Head

/-- The calls that change a tree. -/
inductive Call where
  | insert (k : Nat) (v n : Int)
  | remove (k : Nat) (n : Int)

namespace Call

/-- The first key of the call. -/
def key : Call → Nat
  | .insert k _ _ | .remove k _ => k

/-- The call on a tree. -/
def exec {V : Type} [Tree128Node V] (tree : V) : Call → Option V
  | .insert k v n => Tree128Node.insert tree k v n
  | .remove k n => Tree128Node.remove tree k n

/-- The call on a map. -/
def apply (m : Nat → Option Int) : Call → Nat → Option Int
  | .insert k v n => alter m k (asUsize n) (put v)
  | .remove k n => alter m k (asUsize n) wipe

/-- The range goes on beyond the bottom node of the key, and there is such a node or it is about
to be mapped. -/
def Beyond (m : Nat → Option Int) : Call → Prop
  | .insert k _ n => ¬Fits k (asUsize n)
  | .remove k n => ¬Fits k (asUsize n) ∧ m k ≠ none

end Call

section

variable {tree tree' : RadixTree} {m : Nat → Option Int} {c : Call}

theorem path_tree (k : Nat) : path RadixTree k = k :=
  Nat.mul_div_cancel k (Nat.two_pow_pos 128)

/-- The tree stands for the map. -/
def Represents (tree : RadixTree) (m : Nat → Option Int) : Prop :=
  ∀ q < 2 ^ 128, entry tree q = m q

theorem Represents.zeroed : Represents Tree128Node.zeroed fun _ => none := fun _ _ => rfl

theorem Represents.getMut (h : Represents tree m) {k : Nat} (hk : k < 2 ^ 128) :
    Tree128Node.getMut tree k = some ((m k).getD (-1)) := by
  rw [LawfulNode.getMut tree k hk, path_tree, h k hk]

theorem Represents.alters (h : Represents tree m) {p n : Nat}
    {f : Bool → Option Int → Option Int} {panics : Prop} {res : Option RadixTree}
    (halters : Alters tree p n f panics res) :
    (¬panics ∧ ∃ tree', res = some tree' ∧ Represents tree' (alter m p n f)) ∨
      panics ∧ res = none := by
  obtain ⟨returns, tree', hres, hentry⟩ | panics := halters
  · refine .inl ⟨returns, tree', hres, fun q hq => ?_⟩
    rw [hentry q hq, alter, alter, h q hq]
  · exact .inr panics

/-- A call does the same to the tree and to the map, unless its range is cut off. -/
theorem Represents.exec (h : Represents tree m) (hk : c.key < 2 ^ 128) :
    (¬c.Beyond m ∧ ∃ tree', c.exec tree = some tree' ∧ Represents tree' (c.apply m)) ∨
      c.Beyond m ∧ c.exec tree = none := by
  cases c with
  | insert k v n =>
      have halters := LawfulNode.insert tree k v n hk
      rw [path_tree] at halters
      exact h.alters halters
  | remove k n =>
      have halters := LawfulNode.remove tree k n hk
      rw [path_tree, h k hk] at halters
      exact h.alters halters

theorem Represents.run {calls : List Call} (h : Represents tree m)
    (keys : ∀ c ∈ calls, c.key < 2 ^ 128) (run : calls.foldlM Call.exec tree = some tree') :
    Represents tree' (calls.foldl Call.apply m) := by
  induction calls generalizing tree m with
  | nil =>
      obtain rfl := Option.some.inj run
      exact h
  | cons c calls ih =>
      obtain ⟨hc, hrest⟩ := List.forall_mem_cons.mp keys
      rw [List.foldlM_cons] at run
      obtain ⟨next, hexec, hrun⟩ := Option.bind_eq_some_iff.mp run
      obtain ⟨-, next', hexec', hnext⟩ | ⟨-, hnone⟩ := h.exec hc
      · cases hexec.symm.trans hexec'
        exact ih hnext hrest hrun
      · cases hexec.symm.trans hnone

/-- Whatever has been inserted and removed, the tree is the map that has gone through the same
calls, as long as its nodes can be mapped: `-1` is found where there is no bottom node, and a call
panics exactly if its range goes on beyond one. -/
theorem tree_is_map {calls : List Call} (keys : ∀ c ∈ calls, c.key < 2 ^ 128)
    (run : calls.foldlM Call.exec Tree128Node.zeroed = some tree) :
    (∀ k < 2 ^ 128, Tree128Node.getMut tree k =
      some ((calls.foldl Call.apply (fun _ => none) k).getD (-1))) ∧
    ∀ c : Call, c.key < 2 ^ 128 →
      (c.exec tree = none ↔ c.Beyond (calls.foldl Call.apply fun _ => none)) := by
  have h := Represents.zeroed.run keys run
  refine ⟨fun k hk => h.getMut hk, fun c hc => ?_⟩
  obtain ⟨within, tree', hexec, -⟩ | ⟨beyond, hnone⟩ := h.exec hc
  · rw [hexec]
    exact iff_of_false (Option.some_ne_none _) within
  · exact iff_of_true hnone beyond

end

/-- The pages of two runs, one behind the other. -/
def twoRuns : List Call :=
  [.insert ((4096 * 4094) <<< 16) 4 2, .insert ((4096 * 4094 + 2 * 4096) <<< 16) 3 2]

theorem tree_is_map_twoRuns : ∃ tree : RadixTree,
    twoRuns.foldlM Call.exec Tree128Node.zeroed = some tree ∧
    Tree128Node.getMut tree 0 = some (-1) ∧
    Tree128Node.getMut tree ((4096 * 4094) <<< 16 + 1) = some 4 ∧
    Tree128Node.getMut tree ((4096 * 4094) <<< 16 + 2) = some 0 ∧
    (∀ n, Call.exec tree (.insert 0 1 n) = none ↔ ¬Fits 0 (asUsize n)) := by
  obtain ⟨tree, run⟩ : ∃ tree : RadixTree,
      twoRuns.foldlM Call.exec Tree128Node.zeroed = some tree :=
    Option.isSome_iff_exists.mp (by decide)
  obtain ⟨values, panics⟩ := tree_is_map (by decide) run
  refine ⟨tree, run, values _ (by decide), values _ (by decide), values _ (by decide), fun n => ?_⟩
  exact panics (.insert 0 1 n) (Nat.two_pow_pos 128)

end UniAlloc.Radix128
