import Mathlib.Logic.Function.Basic

/-!
# A vector of linked rings

`ArrayLinkedList` keeps items in a vector, each with the indices of its neighbours. All
rings share the vector, and the caller remembers where they start. An index that is out of
range is a panic, and so is a subtraction below `0`; both are `none`.
-/

namespace UniAlloc

/-- The vector of `(prev, next, item)`. -/
structure ArrayLinkedList (T : Type) where
  list : List (Nat × Nat × T)

namespace ArrayLinkedList

variable {T : Type} (self : ArrayLinkedList T)

def new : ArrayLinkedList T := ⟨[]⟩

def len : Nat := self.list.length

def get (idx : Nat) : Option T := self.list[idx]?.map fun node => node.2.2

def getPrev (idx : Nat) : Option Nat := self.list[idx]?.map fun node => node.1

def getNext (idx : Nat) : Option Nat := self.list[idx]?.map fun node => node.2.1

def setPrev (curr new_prev : Nat) : Option (ArrayLinkedList T) := do
  let (_, next, item) ← self.list[curr]?
  some ⟨self.list.set curr (new_prev, next, item)⟩

def setNext (curr new_next : Nat) : Option (ArrayLinkedList T) := do
  let (prev, _, item) ← self.list[curr]?
  some ⟨self.list.set curr (prev, new_next, item)⟩

def push (item : T) : ArrayLinkedList T := ⟨self.list ++ [(self.len, self.len, item)]⟩

/-- Writes through `get_mut`. -/
def setItem (idx : Nat) (item : T) : ArrayLinkedList T :=
  ⟨self.list.modify idx fun node => (node.1, node.2.1, item)⟩

def resetLinks (idx : Nat) : Option (ArrayLinkedList T) := do
  let (_, _, item) ← self.list[idx]?
  some ⟨self.list.set idx (idx, idx, item)⟩

def removeNode (idx : Nat) : Option (ArrayLinkedList T) := do
  let prev_idx ← self.getPrev idx
  let next_idx ← self.getNext idx
  let self ← self.setPrev next_idx prev_idx
  let self ← self.setNext prev_idx next_idx
  let self ← self.setPrev idx idx
  self.setNext idx idx

/-- The index of the last item is computed before anything is looked at. -/
def pop : Option (ArrayLinkedList T × Option T) :=
  if self.len = 0 then none
  else do
    let self ← self.removeNode (self.len - 1)
    match self.list.getLast? with
    | some (_, _, item) => some (⟨self.list.dropLast⟩, some item)
    | none => some (self, none)

def insertToNext (base idx : Nat) : Option (ArrayLinkedList T) := do
  let next_idx ← self.getNext base
  let self ← self.setPrev next_idx idx
  let self ← self.setNext base idx
  let self ← self.setNext idx next_idx
  self.setPrev idx base

def insertToPrev (base idx : Nat) : Option (ArrayLinkedList T) := do
  let prev_idx ← self.getPrev base
  let self ← self.setNext prev_idx idx
  let self ← self.setPrev base idx
  let self ← self.setNext idx base
  self.setPrev idx prev_idx

/-- The `prev` link of every index. Indices that are not in use are linked to themselves. -/
def prev (i : Nat) : Nat := (self.getPrev i).getD i

def next (i : Nat) : Nat := (self.getNext i).getD i

def items : List T := self.list.map fun node => node.2.2

/-- The links are now `prev` and `next`, and the items are the same. -/
structure Relinks (before after : ArrayLinkedList T) (prev next : Nat → Nat) : Prop where
  items : after.items = before.items
  prev : after.prev = prev
  next : after.next = next

variable {self} {self' : ArrayLinkedList T} {i j p idx base : Nat} {item : T}

theorem items_length : self.items.length = self.len := List.length_map _

theorem getPrev_eq (h : i < self.len) : self.getPrev i = some (self.prev i) := by
  rw [prev, getPrev, List.getElem?_eq_getElem h]
  rfl

theorem getNext_eq (h : i < self.len) : self.getNext i = some (self.next i) := by
  rw [next, getNext, List.getElem?_eq_getElem h]
  rfl

theorem prev_of_le (h : self.len ≤ i) : self.prev i = i := by
  rw [prev, getPrev, List.getElem?_eq_none h]
  rfl

theorem next_of_le (h : self.len ≤ i) : self.next i = i := by
  rw [next, getNext, List.getElem?_eq_none h]
  rfl

theorem Relinks.len {prev next : Nat → Nat} (h : Relinks self self' prev next) :
    self'.len = self.len := by
  rw [← items_length, h.items, items_length]

theorem getElem?_eq (h : i < self.len) :
    ∃ item, self.list[i]? = some (self.prev i, self.next i, item) := by
  have hget : self.list[i]? = some self.list[i] := List.getElem?_eq_getElem h
  refine ⟨self.list[i].2.2, ?_⟩
  rw [prev, next, getPrev, getNext, hget]
  rfl

/-- A node is replaced by one with the same item. -/
theorem relinks_set (hget : self.list[i]? = some (self.prev i, self.next i, item)) (p n : Nat) :
    Relinks self ⟨self.list.set i (p, n, item)⟩ (Function.update self.prev i p)
      (Function.update self.next i n) := by
  obtain ⟨hlt, -⟩ := List.getElem?_eq_some_iff.mp hget
  refine ⟨?_, ?_, ?_⟩
  · apply List.ext_getElem?
    intro j
    simp only [items, List.getElem?_map, List.getElem?_set]
    split
    · next heq => rw [← heq, hget, Option.map_some, Option.map_some]
    · rfl
  · funext j
    rw [prev, getPrev, List.getElem?_set]
    split
    · next heq => rw [← heq, Function.update_self, Option.map_some, Option.getD_some]
    · next hne => rw [Function.update_of_ne (Ne.symm hne), prev, getPrev]
  · funext j
    rw [next, getNext, List.getElem?_set]
    split
    · next heq => rw [← heq, Function.update_self, Option.map_some, Option.getD_some]
    · next hne => rw [Function.update_of_ne (Ne.symm hne), next, getNext]

theorem setPrev_spec (h : i < self.len) (p : Nat) : ∃ self', self.setPrev i p = some self' ∧
    Relinks self self' (Function.update self.prev i p) self.next := by
  obtain ⟨item, hget⟩ := getElem?_eq h
  refine ⟨⟨self.list.set i (p, self.next i, item)⟩, by rw [setPrev, hget]; rfl, ?_⟩
  have relinks := relinks_set hget p (self.next i)
  rwa [Function.update_eq_self] at relinks

theorem setNext_spec (h : i < self.len) (n : Nat) : ∃ self', self.setNext i n = some self' ∧
    Relinks self self' self.prev (Function.update self.next i n) := by
  obtain ⟨item, hget⟩ := getElem?_eq h
  refine ⟨⟨self.list.set i (self.prev i, n, item)⟩, by rw [setNext, hget]; rfl, ?_⟩
  have relinks := relinks_set hget (self.prev i) n
  rwa [Function.update_eq_self] at relinks

/-- An item that is written back does not change the items. -/
theorem items_set {p n : Nat} (hget : self.list[i]? = some (p, n, item)) (p' n' : Nat) :
    (⟨self.list.set i (p', n', item)⟩ : ArrayLinkedList T).items = self.items := by
  apply List.ext_getElem?
  intro j
  rw [items, items, List.getElem?_map, List.getElem?_map, List.getElem?_set]
  split
  · next heq =>
      subst heq
      have hlt : i < self.list.length := (List.getElem?_eq_some_iff.mp hget).1
      rw [if_pos hlt, hget]
      rfl
  · rfl

theorem setPrev_items (h : self.setPrev i p = some self') : self'.items = self.items := by
  obtain ⟨⟨p', n, item⟩, hget, h⟩ := Option.bind_eq_some_iff.mp h
  obtain rfl := Option.some.inj h
  exact items_set hget _ _

theorem setNext_items (h : self.setNext i p = some self') : self'.items = self.items := by
  obtain ⟨⟨p', n, item⟩, hget, h⟩ := Option.bind_eq_some_iff.mp h
  obtain rfl := Option.some.inj h
  exact items_set hget _ _

theorem resetLinks_items (h : self.resetLinks i = some self') : self'.items = self.items := by
  obtain ⟨⟨p', n, item⟩, hget, h⟩ := Option.bind_eq_some_iff.mp h
  obtain rfl := Option.some.inj h
  exact items_set hget _ _

theorem removeNode_items (h : self.removeNode idx = some self') : self'.items = self.items := by
  obtain ⟨p, -, h⟩ := Option.bind_eq_some_iff.mp h
  obtain ⟨n, -, h⟩ := Option.bind_eq_some_iff.mp h
  obtain ⟨list₁, h₁, h⟩ := Option.bind_eq_some_iff.mp h
  obtain ⟨list₂, h₂, h⟩ := Option.bind_eq_some_iff.mp h
  obtain ⟨list₃, h₃, h⟩ := Option.bind_eq_some_iff.mp h
  rw [setNext_items h, setPrev_items h₃, setNext_items h₂, setPrev_items h₁]

theorem insertToPrev_items (h : self.insertToPrev base idx = some self') :
    self'.items = self.items := by
  obtain ⟨p, -, h⟩ := Option.bind_eq_some_iff.mp h
  obtain ⟨list₁, h₁, h⟩ := Option.bind_eq_some_iff.mp h
  obtain ⟨list₂, h₂, h⟩ := Option.bind_eq_some_iff.mp h
  obtain ⟨list₃, h₃, h⟩ := Option.bind_eq_some_iff.mp h
  rw [setPrev_items h, setNext_items h₃, setPrev_items h₂, setNext_items h₁]

theorem get_eq (idx : Nat) : self.get idx = self.items[idx]? := List.getElem?_map.symm

theorem getElem?_setItem (self : ArrayLinkedList T) (idx : Nat) (item : T) (i : Nat) :
    (self.setItem idx item).list[i]? =
      self.list[i]?.map fun node => (node.1, node.2.1, if i = idx then item else node.2.2) := by
  rw [setItem, List.getElem?_modify]
  by_cases h : idx = i
  · subst h
    simp
  · simp [h, Ne.symm h]

theorem setItem_prev (self : ArrayLinkedList T) (idx : Nat) (item : T) :
    (self.setItem idx item).prev = self.prev := by
  funext i
  rw [prev, prev, getPrev, getPrev, getElem?_setItem, Option.map_map]
  rfl

theorem setItem_next (self : ArrayLinkedList T) (idx : Nat) (item : T) :
    (self.setItem idx item).next = self.next := by
  funext i
  rw [next, next, getNext, getNext, getElem?_setItem, Option.map_map]
  rfl

theorem setItem_len (self : ArrayLinkedList T) (idx : Nat) (item : T) :
    (self.setItem idx item).len = self.len :=
  List.length_modify _ _ _

theorem get_setItem (self : ArrayLinkedList T) (idx : Nat) (item : T) (i : Nat) :
    (self.setItem idx item).get i =
      if i = idx then (self.get i).map fun _ => item else self.get i := by
  rw [get, get, getElem?_setItem, Option.map_map, Option.map_map]
  split
  · simp [Function.comp_def]
  · simp [Function.comp_def]

/-- Writing back what was read changes nothing. -/
theorem setItem_get (h : self.get idx = some item) : self.setItem idx item = self := by
  have hlist : (self.setItem idx item).list = self.list := by
    apply List.ext_getElem?
    intro i
    rw [getElem?_setItem]
    obtain hi | ⟨node, hi⟩ := (self.list[i]?).eq_none_or_eq_some
    · rw [hi, Option.map_none]
    · rw [hi, Option.map_some]
      split
      · next heq =>
          subst heq
          rw [get, hi, Option.map_some] at h
          rw [← Option.some.inj h]
      · rfl
  obtain ⟨list⟩ := self
  exact congrArg mk hlist

/-- A node that is linked to itself keeps its links. -/
theorem resetLinks_spec (h : i < self.len) (hprev : self.prev i = i) (hnext : self.next i = i) :
    ∃ self', self.resetLinks i = some self' ∧ Relinks self self' self.prev self.next := by
  obtain ⟨item, hget⟩ := getElem?_eq h
  refine ⟨⟨self.list.set i (i, i, item)⟩, by rw [resetLinks, hget]; rfl, ?_⟩
  have relinks := relinks_set hget i i
  have hp : Function.update self.prev i i = self.prev := by
    rw [Function.update_eq_self_iff, hprev]
  have hn : Function.update self.next i i = self.next := by
    rw [Function.update_eq_self_iff, hnext]
  rwa [hp, hn] at relinks

/-- Every link is an index in use. -/
def Closed (self : ArrayLinkedList T) : Prop :=
  ∀ i < self.len, self.prev i < self.len ∧ self.next i < self.len

/-- The neighbours are linked to each other before the node is linked to itself. -/
theorem removeNode_spec (closed : self.Closed) (h : idx < self.len) :
    ∃ self', self.removeNode idx = some self' ∧ Relinks self self'
      (Function.update (Function.update self.prev (self.next idx) (self.prev idx)) idx idx)
      (Function.update (Function.update self.next (self.prev idx) (self.next idx)) idx idx) := by
  obtain ⟨hprev, hnext⟩ := closed idx h
  obtain ⟨l₁, h₁, r₁⟩ := setPrev_spec hnext (self.prev idx)
  obtain ⟨l₂, h₂, r₂⟩ := setNext_spec (show self.prev idx < l₁.len from r₁.len ▸ hprev)
    (self.next idx)
  obtain ⟨l₃, h₃, r₃⟩ := setPrev_spec (show idx < l₂.len from r₂.len ▸ r₁.len ▸ h) idx
  have h₃len : l₃.len = self.len := by rw [r₃.len, r₂.len, r₁.len]
  obtain ⟨l₄, h₄, r₄⟩ := setNext_spec (show idx < l₃.len from h₃len ▸ h) idx
  refine ⟨l₄, ?_, ?_, ?_, ?_⟩
  · rw [removeNode, getPrev_eq h, getNext_eq h]
    simp only [Option.bind_eq_bind, Option.bind_some, h₁, h₂, h₃, h₄]
  · rw [r₄.items, r₃.items, r₂.items, r₁.items]
  · rw [r₄.prev, r₃.prev, r₂.prev, r₁.prev]
  · rw [r₄.next, r₃.next, r₂.next, r₁.next]

theorem insertToNext_spec (closed : self.Closed) (hbase : base < self.len) (h : idx < self.len) :
    ∃ self', self.insertToNext base idx = some self' ∧ Relinks self self'
      (Function.update (Function.update self.prev (self.next base) idx) idx base)
      (Function.update (Function.update self.next base idx) idx (self.next base)) := by
  obtain ⟨-, hnext⟩ := closed base hbase
  obtain ⟨l₁, h₁, r₁⟩ := setPrev_spec hnext idx
  obtain ⟨l₂, h₂, r₂⟩ := setNext_spec (show base < l₁.len from r₁.len ▸ hbase) idx
  obtain ⟨l₃, h₃, r₃⟩ := setNext_spec (show idx < l₂.len from r₂.len ▸ r₁.len ▸ h)
    (self.next base)
  have h₃len : l₃.len = self.len := by rw [r₃.len, r₂.len, r₁.len]
  obtain ⟨l₄, h₄, r₄⟩ := setPrev_spec (show idx < l₃.len from h₃len ▸ h) base
  refine ⟨l₄, ?_, ?_, ?_, ?_⟩
  · rw [insertToNext, getNext_eq hbase]
    simp only [Option.bind_eq_bind, Option.bind_some, h₁, h₂, h₃, h₄]
  · rw [r₄.items, r₃.items, r₂.items, r₁.items]
  · rw [r₄.prev, r₃.prev, r₂.prev, r₁.prev]
  · rw [r₄.next, r₃.next, r₂.next, r₁.next]

theorem insertToPrev_spec (closed : self.Closed) (hbase : base < self.len) (h : idx < self.len) :
    ∃ self', self.insertToPrev base idx = some self' ∧ Relinks self self'
      (Function.update (Function.update self.prev base idx) idx (self.prev base))
      (Function.update (Function.update self.next (self.prev base) idx) idx base) := by
  obtain ⟨hprev, -⟩ := closed base hbase
  obtain ⟨l₁, h₁, r₁⟩ := setNext_spec hprev idx
  obtain ⟨l₂, h₂, r₂⟩ := setPrev_spec (show base < l₁.len from r₁.len ▸ hbase) idx
  obtain ⟨l₃, h₃, r₃⟩ := setNext_spec (show idx < l₂.len from r₂.len ▸ r₁.len ▸ h) base
  have h₃len : l₃.len = self.len := by rw [r₃.len, r₂.len, r₁.len]
  obtain ⟨l₄, h₄, r₄⟩ := setPrev_spec (show idx < l₃.len from h₃len ▸ h) (self.prev base)
  refine ⟨l₄, ?_, ?_, ?_, ?_⟩
  · rw [insertToPrev, getPrev_eq hbase]
    simp only [Option.bind_eq_bind, Option.bind_some, h₁, h₂, h₃, h₄]
  · rw [r₄.items, r₃.items, r₂.items, r₁.items]
  · rw [r₄.prev, r₃.prev, r₂.prev, r₁.prev]
  · rw [r₄.next, r₃.next, r₂.next, r₁.next]

end ArrayLinkedList

end UniAlloc
