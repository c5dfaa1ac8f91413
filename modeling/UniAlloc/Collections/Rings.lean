import UniAlloc.Collections.Linklist
import UniAlloc.Linked.Ring

/-!
# The rings of a vector

Whatever is pushed, popped, inserted and removed, the links of an `ArrayLinkedList` are a
permutation of its indices, whose cycles are the rings. Insertion and removal change the
ring they are about and leave the others alone. A `pop` of an empty list panics.
-/

namespace UniAlloc.ArrayLinkedList

variable {T : Type}

/-- The indices of `l`, in order, are one of the rings. -/
structure Ring (list : ArrayLinkedList T) (l : List Nat) : Prop where
  nodup : l.Nodup
  lt : ∀ x ∈ l, x < list.len
  linked : LinkedRing list.prev list.next l

/-- Every index has a ring. -/
def Rings (list : ArrayLinkedList T) : Prop := ∀ i < list.len, ∃ m, list.Ring (i :: m)

/-- The `next` links are a permutation, and the `prev` links are its inverse. -/
def Permutes (list : ArrayLinkedList T) : Prop :=
  ∃ σ : Equiv.Perm (Fin list.len), ∀ i : Fin list.len,
    list.next i = σ i ∧ list.prev i = σ.symm i

variable {list after : ArrayLinkedList T} {l m : List Nat} {i j x base : Nat}

theorem Ring.rotate (h : list.Ring l) (rotated : l ~r m) : list.Ring m :=
  ⟨rotated.nodup_iff.mp h.nodup, fun x hx => h.lt x (rotated.mem_iff.mpr hx),
    h.linked.rotate rotated⟩

theorem Ring.exists_cons (h : list.Ring l) (hx : x ∈ l) :
    ∃ m, l ~r x :: m ∧ list.Ring (x :: m) := by
  obtain ⟨m, rotated, -⟩ := h.linked.exists_cons hx
  exact ⟨m, rotated, h.rotate rotated⟩

/-- A ring stays if no link of it changes. -/
theorem Ring.congr (h : list.Ring l) (hlen : ∀ x ∈ l, x < after.len)
    (hprev : ∀ x ∈ l, after.prev x = list.prev x) (hnext : ∀ x ∈ l, after.next x = list.next x) :
    after.Ring l :=
  ⟨h.nodup, hlen, h.linked.congr hprev hnext⟩

/-- A node that is linked to itself is on no ring with others. -/
theorem Ring.not_mem (h : list.Ring l) (hself : list.next i = i) (hx : x ∈ l) (hne : x ≠ i) :
    i ∉ l := by
  intro hi
  obtain ⟨m, rotated, ring⟩ := h.exists_cons hi
  obtain rfl := (ring.linked.next_eq_self_iff ring.nodup).mp hself
  exact hne (List.mem_singleton.mp (rotated.mem_iff.mp hx))

namespace Rings

theorem closed (h : list.Rings) : list.Closed := by
  intro i hi
  obtain ⟨m, ring⟩ := h i hi
  exact ⟨ring.lt _ (ring.linked.prev_mem List.mem_cons_self),
    ring.lt _ (ring.linked.next_mem List.mem_cons_self)⟩

theorem prev_next (h : list.Rings) (hi : i < list.len) : list.prev (list.next i) = i := by
  obtain ⟨m, ring⟩ := h i hi
  exact ring.linked.prev_next List.mem_cons_self

theorem next_prev (h : list.Rings) (hi : i < list.len) : list.next (list.prev i) = i := by
  obtain ⟨m, ring⟩ := h i hi
  exact ring.linked.next_prev List.mem_cons_self

theorem permutes (h : list.Rings) : list.Permutes := by
  refine ⟨⟨fun i => ⟨list.next i, (h.closed i i.isLt).2⟩,
    fun i => ⟨list.prev i, (h.closed i i.isLt).1⟩, ?_, ?_⟩, fun i => ⟨rfl, rfl⟩⟩
  · intro i
    exact Fin.ext (h.prev_next i.isLt)
  · intro i
    exact Fin.ext (h.next_prev i.isLt)

/-- The neighbours of an index are on its ring. -/
theorem next_not_mem (h : list.Rings) (hi : i < list.len) (ring : list.Ring l) (hl : i ∉ l) :
    list.next i ∉ l := by
  intro hmem
  exact hl (h.prev_next hi ▸ ring.linked.prev_mem hmem)

theorem prev_not_mem (h : list.Rings) (hi : i < list.len) (ring : list.Ring l) (hl : i ∉ l) :
    list.prev i ∉ l := by
  intro hmem
  exact hl (h.next_prev hi ▸ ring.linked.next_mem hmem)

end Rings

/-- `i` is taken off its ring. -/
structure Removes (before after : ArrayLinkedList T) (i : Nat) : Prop where
  items : after.items = before.items
  ring : ∀ m, before.Ring (i :: m) → after.Ring m
  alone : after.Ring [i]
  others : ∀ l, before.Ring l → i ∉ l → after.Ring l

theorem Relinks.removes (h : list.Rings) (hi : i < list.len)
    (relinks : Relinks list after
      (Function.update (Function.update list.prev (list.next i) (list.prev i)) i i)
      (Function.update (Function.update list.next (list.prev i) (list.next i)) i i)) :
    Removes list after i := by
  have hprev : ∀ y, y ≠ i →
      after.prev y = if y = list.next i then list.prev i else list.prev y := by
    intro y hy
    rw [relinks.prev, Function.update_of_ne hy, Function.update_apply]
  have hnext : ∀ y, y ≠ i →
      after.next y = if y = list.prev i then list.next i else list.next y := by
    intro y hy
    rw [relinks.next, Function.update_of_ne hy, Function.update_apply]
  refine ⟨relinks.items, fun m ring => ?_, ?_, fun l ring hl => ?_⟩
  · obtain ⟨him, hm⟩ := List.nodup_cons.mp ring.nodup
    have hne : ∀ y ∈ m, y ≠ i := fun y hy e => him (e ▸ hy)
    refine ⟨hm, fun x hx => relinks.len ▸ ring.lt x (List.mem_cons_of_mem i hx), ?_⟩
    exact ring.linked.unlink him (fun y hy => hprev y (hne y hy)) fun y hy => hnext y (hne y hy)
  · refine ⟨List.nodup_singleton i, ?_, LinkedRing.singleton_iff.mpr ⟨?_, ?_⟩⟩
    · intro x hx
      rw [List.mem_singleton.mp hx, relinks.len]
      exact hi
    · rw [relinks.next, Function.update_self]
    · rw [relinks.prev, Function.update_self]
  · have hne : ∀ y ∈ l, y ≠ i := fun y hy e => hl (e ▸ hy)
    refine ring.congr (fun x hx => relinks.len ▸ ring.lt x hx) (fun y hy => ?_) fun y hy => ?_
    · rw [hprev y (hne y hy), if_neg]
      rintro rfl
      exact h.next_not_mem hi ring hl hy
    · rw [hnext y (hne y hy), if_neg]
      rintro rfl
      exact h.prev_not_mem hi ring hl hy

theorem Removes.rings (h : list.Rings) (hlen : after.len = list.len)
    (removes : Removes list after i) : after.Rings := by
  intro x hx
  obtain rfl | hne := eq_or_ne x i
  · exact ⟨[], removes.alone⟩
  · obtain ⟨m, ring⟩ := h x (hlen ▸ hx)
    by_cases hi : i ∈ x :: m
    · obtain ⟨m', rotated, ring'⟩ := ring.exists_cons hi
      have hmem : x ∈ m' :=
        (List.mem_cons.mp (rotated.mem_iff.mp List.mem_cons_self)).resolve_left hne
      obtain ⟨m'', -, ring''⟩ := (removes.ring m' ring').exists_cons hmem
      exact ⟨m'', ring''⟩
    · exact ⟨m, removes.others _ ring hi⟩

/-- `i` is put into the ring of `base`: `place m` is the ring that was `base :: m`. -/
structure Inserts (before after : ArrayLinkedList T) (base i : Nat)
    (place : List Nat → List Nat) : Prop where
  items : after.items = before.items
  ring : ∀ m, before.Ring (base :: m) → after.Ring (place m)
  others : ∀ l, before.Ring l → base ∉ l → i ∉ l → after.Ring l

/-- A node that is linked before `a` becomes the last of the ring that starts with `a`. -/
theorem Relinks.inserts {a : Nat} (h : list.Rings) (ha : a < list.len) (hi : i < list.len)
    (hself : list.next i = i) (hne : a ≠ i)
    (relinks : Relinks list after
      (Function.update (Function.update list.prev a i) i (list.prev a))
      (Function.update (Function.update list.next (list.prev a) i) i a)) :
    Inserts list after a i fun m => a :: m ++ [i] := by
  have hprev : ∀ y, after.prev y =
      if y = a then i else if y = i then list.prev a else list.prev y := by
    intro y
    simp only [relinks.prev, Function.update_apply]
    split
    · next hy => rw [if_neg (fun e : y = a => hne (e ▸ hy))]
    · rfl
  have hnot : ∀ {m}, list.Ring (a :: m) → i ∉ a :: m := fun ring =>
    ring.not_mem hself List.mem_cons_self hne
  have hlast : list.prev a ≠ i := by
    rintro hprev
    obtain ⟨m, ring⟩ := h a ha
    exact hnot ring (hprev ▸ ring.linked.prev_mem List.mem_cons_self)
  have hnext : ∀ y, after.next y =
      if y = list.prev a then i else if y = i then a else list.next y := by
    intro y
    simp only [relinks.next, Function.update_apply]
    split
    · next hy => rw [if_neg (fun e : y = list.prev a => hlast (e ▸ hy))]
    · rfl
  refine ⟨relinks.items, fun m ring => ⟨?_, fun x hx => ?_, ?_⟩, fun l ring hl hil => ?_⟩
  · exact List.nodup_append.mpr ⟨ring.nodup, List.nodup_singleton i, fun x hx y hy e =>
      hnot ring (List.mem_singleton.mp hy ▸ e ▸ hx)⟩
  · rw [relinks.len]
    obtain hx | hx := List.mem_append.mp hx
    · exact ring.lt x hx
    · exact List.mem_singleton.mp hx ▸ hi
  · exact ring.linked.append ring.nodup (hnot ring) hprev hnext
  · refine ring.congr (fun x hx => relinks.len ▸ ring.lt x hx) (fun y hy => ?_) fun y hy => ?_
    · rw [hprev, if_neg (fun e : y = a => hl (e ▸ hy)), if_neg (fun e : y = i => hil (e ▸ hy))]
    · rw [hnext, if_neg, if_neg (fun e : y = i => hil (e ▸ hy))]
      rintro rfl
      exact h.prev_not_mem ha ring hl hy

/-- A ring with its last node is the ring that begins with that node. -/
theorem Inserts.to_prev (inserts : Inserts list after base i fun m => base :: m ++ [i]) :
    Inserts list after base i fun m => i :: base :: m :=
  ⟨inserts.items, fun m ring => (inserts.ring m ring).rotate List.isRotated_append,
    inserts.others⟩

/-- Before the next node is after the node itself. -/
theorem Inserts.to_next (h : list.Rings) (hbase : base < list.len)
    (inserts : Inserts list after (list.next base) i fun m => list.next base :: m ++ [i]) :
    Inserts list after base i fun m => base :: i :: m := by
  refine ⟨inserts.items, fun m ring => ?_, fun l ring hl hil => ?_⟩
  · obtain ⟨a, m', hm⟩ := List.exists_cons_of_ne_nil (List.append_ne_nil_of_right_ne_nil m
      (List.cons_ne_nil base []))
    have ha : list.next base = a := by
      rw [ring.linked.follows_head.1]
      simp only [hm, List.head_cons]
    have ring' : list.Ring (a :: m') := hm ▸ ring.rotate (List.isRotated_append (l := [base]))
    have ringAfter := inserts.ring m' (ha ▸ ring')
    rw [ha, ← hm, List.append_assoc] at ringAfter
    exact ringAfter.rotate List.isRotated_append
  · exact inserts.others l ring (h.next_not_mem hbase ring hl) hil

theorem Inserts.rings {place : List Nat → List Nat} (h : list.Rings) (hbase : base < list.len)
    (hself : list.next i = i) (hplace : ∀ m x, x ∈ place m ↔ x = i ∨ x ∈ base :: m)
    (hlen : after.len = list.len) (inserts : Inserts list after base i place) : after.Rings := by
  intro x hx
  obtain rfl | hne := eq_or_ne x i
  · obtain ⟨m, ring⟩ := h base hbase
    obtain ⟨m', -, ring'⟩ := (inserts.ring m ring).exists_cons ((hplace m x).mpr (.inl rfl))
    exact ⟨m', ring'⟩
  · obtain ⟨l, ring⟩ := h x (hlen ▸ hx)
    by_cases hmem : base ∈ x :: l
    · obtain ⟨m, rotated, ring'⟩ := ring.exists_cons hmem
      have hxm : x ∈ base :: m := rotated.mem_iff.mp List.mem_cons_self
      obtain ⟨m', -, ring''⟩ := (inserts.ring m ring').exists_cons ((hplace m x).mpr (.inr hxm))
      exact ⟨m', ring''⟩
    · exact ⟨l, inserts.others _ ring hmem (ring.not_mem hself List.mem_cons_self hne)⟩

theorem push_items (list : ArrayLinkedList T) (item : T) :
    (list.push item).items = list.items ++ [item] := List.map_append

theorem push_len (list : ArrayLinkedList T) (item : T) : (list.push item).len = list.len + 1 :=
  List.length_append

/-- The new index is linked to itself, as indices that are not in use are. -/
theorem push_links (list : ArrayLinkedList T) (item : T) :
    (list.push item).prev = list.prev ∧ (list.push item).next = list.next := by
  have hother : ∀ j, j ≠ list.len → (list.push item).list[j]? = list.list[j]? := by
    intro j hj
    obtain hlt | hlt := Nat.lt_or_gt_of_ne hj
    · exact List.getElem?_append_left hlt
    · rw [List.getElem?_eq_none (Nat.le_of_lt hlt)]
      exact List.getElem?_eq_none (by rw [push, List.length_append]; exact hlt)
  have hnew : (list.push item).list[list.len]? = some (list.len, list.len, item) :=
    List.getElem?_concat_length
  constructor
  · funext j
    obtain rfl | hj := eq_or_ne j list.len
    · rw [prev, getPrev, hnew, prev_of_le (Nat.le_refl _)]
      rfl
    · rw [prev, prev, getPrev, getPrev, hother j hj]
  · funext j
    obtain rfl | hj := eq_or_ne j list.len
    · rw [next, getNext, hnew, next_of_le (Nat.le_refl _)]
      rfl
    · rw [next, next, getNext, getNext, hother j hj]

/-- The list without its last item. -/
def shrunk (list : ArrayLinkedList T) : ArrayLinkedList T := ⟨list.list.dropLast⟩

theorem shrunk_len (list : ArrayLinkedList T) : list.shrunk.len = list.len - 1 :=
  List.length_dropLast

theorem shrunk_items (list : ArrayLinkedList T) : list.shrunk.items = list.items.dropLast :=
  List.map_dropLast

theorem shrunk_links (hi : i < list.len - 1) :
    list.shrunk.prev i = list.prev i ∧ list.shrunk.next i = list.next i := by
  have hget : list.shrunk.list[i]? = list.list[i]? := by
    rw [shrunk, List.getElem?_dropLast]
    exact if_pos hi
  rw [prev, prev, next, next, getPrev, getPrev, getNext, getNext, hget]
  exact ⟨rfl, rfl⟩

theorem Ring.shrunk (h : list.Ring l) (hlast : list.len - 1 ∉ l) : list.shrunk.Ring l := by
  have hlt : ∀ x ∈ l, x < list.len - 1 := by
    intro x hx
    have hne : x ≠ list.len - 1 := fun e => hlast (e ▸ hx)
    have := h.lt x hx
    omega
  exact h.congr (fun x hx => by rw [shrunk_len]; exact hlt x hx)
    (fun x hx => (shrunk_links (hlt x hx)).1) fun x hx => (shrunk_links (hlt x hx)).2

/-- The last item is unlinked before it goes. -/
theorem pop_spec (h : list.Rings) (hpos : 0 < list.len) : ∃ mid,
    Removes list mid (list.len - 1) ∧ mid.len = list.len ∧
      list.pop = some (mid.shrunk, list.items.getLast?) := by
  have hlast : list.len - 1 < list.len := by omega
  obtain ⟨mid, hmid, relinks⟩ := removeNode_spec h.closed hlast
  refine ⟨mid, relinks.removes h hlast, relinks.len, ?_⟩
  have hne : mid.list ≠ [] := List.length_pos_iff.mp (relinks.len ▸ hpos : 0 < mid.len)
  obtain ⟨node, hnode⟩ : ∃ node, mid.list.getLast? = some node :=
    ⟨_, List.getLast?_eq_some_getLast hne⟩
  have hitem : list.items.getLast? = some node.2.2 := by
    rw [← relinks.items, items, List.getLast?_map, hnode]
    rfl
  rw [pop, if_neg (by omega), hmid, Option.bind_eq_bind, Option.bind_some, hnode, hitem]
  rfl

inductive Call (T : Type) where
  | push (item : T)
  | pop
  | removeNode (idx : Nat)
  | insertToNext (base idx : Nat)
  | insertToPrev (base idx : Nat)

namespace Call

/-- The list after a call, and its answer. -/
def exec (list : ArrayLinkedList T) : Call T → Option (ArrayLinkedList T × Option T)
  | push item => some (list.push item, none)
  | pop => list.pop
  | removeNode idx => (list.removeNode idx).map (·, none)
  | insertToNext base idx => (list.insertToNext base idx).map (·, none)
  | insertToPrev base idx => (list.insertToPrev base idx).map (·, none)

/-- Indices are in range, and a node that is inserted is linked to itself. -/
def Allowed (list : ArrayLinkedList T) : Call T → Prop
  | push _ | pop => True
  | removeNode idx => idx < list.len
  | insertToNext base idx | insertToPrev base idx =>
      base < list.len ∧ idx < list.len ∧ idx ≠ base ∧ list.next idx = idx ∧ list.prev idx = idx

/-- What a call is for. -/
def Does (before after : ArrayLinkedList T) (answer : Option T) : Call T → Prop
  | push item =>
      answer = none ∧ after.items = before.items ++ [item] ∧ after.Ring [before.len] ∧
        ∀ l, before.Ring l → after.Ring l
  | pop =>
      answer = before.items.getLast? ∧ after.items = before.items.dropLast ∧
        (∀ m, before.Ring ((before.len - 1) :: m) → after.Ring m) ∧
        ∀ l, before.Ring l → before.len - 1 ∉ l → after.Ring l
  | removeNode idx => answer = none ∧ Removes before after idx
  | insertToNext base idx => answer = none ∧ Inserts before after base idx fun m => base :: idx :: m
  | insertToPrev base idx => answer = none ∧ Inserts before after base idx fun m => idx :: base :: m

/-- The number of items after a call. -/
def lenAfter (len : Nat) : Call T → Nat
  | push _ => len + 1
  | pop => len - 1
  | _ => len

theorem push_does (list : ArrayLinkedList T) (item : T) :
    Does list (list.push item) none (push item) := by
  refine ⟨rfl, push_items list item, ⟨List.nodup_singleton _, ?_, ?_⟩, fun l ring => ?_⟩
  · intro x hx
    rw [List.mem_singleton.mp hx, push_len]
    exact Nat.lt_succ_self _
  · rw [LinkedRing.singleton_iff, (push_links list item).1, (push_links list item).2]
    exact ⟨next_of_le (Nat.le_refl _), prev_of_le (Nat.le_refl _)⟩
  · refine ring.congr (fun x hx => ?_) (fun x _ => ?_) fun x _ => ?_
    · rw [push_len]
      exact Nat.lt_succ_of_lt (ring.lt x hx)
    · rw [(push_links list item).1]
    · rw [(push_links list item).2]

/-- A call that is no `pop` of an empty list does what it is for. -/
theorem exec_spec (h : list.Rings) {call : Call T} (allowed : call.Allowed list)
    (hpop : call = pop → 0 < list.len) : ∃ after answer,
      call.exec list = some (after, answer) ∧ call.Does list after answer ∧ after.Rings ∧
        after.len = call.lenAfter list.len := by
  cases call with
  | push item =>
      have does := push_does list item
      refine ⟨_, _, rfl, does, fun i hi => ?_, push_len list item⟩
      obtain hlt | rfl : i < list.len ∨ i = list.len := by
        rw [push_len] at hi
        omega
      · obtain ⟨m, ring⟩ := h i hlt
        exact ⟨m, does.2.2.2 _ ring⟩
      · exact ⟨[], does.2.2.1⟩
  | pop =>
      obtain ⟨mid, removes, hlen, heq⟩ := pop_spec h (hpop rfl)
      refine ⟨_, _, heq, ⟨rfl, ?_, fun m ring => ?_, fun l ring hl => ?_⟩, fun i hi => ?_, ?_⟩
      · rw [shrunk_items, removes.items]
      · exact (removes.ring m ring).shrunk (hlen ▸ (List.nodup_cons.mp ring.nodup).1)
      · exact (removes.others l ring hl).shrunk (hlen ▸ hl)
      · rw [shrunk_len, hlen] at hi
        obtain ⟨m, ring⟩ := removes.rings h hlen i (by omega)
        have hself := (LinkedRing.singleton_iff.mp removes.alone.linked).1
        refine ⟨m, ring.shrunk ?_⟩
        rw [hlen]
        exact ring.not_mem hself List.mem_cons_self (by omega)
      · rw [shrunk_len, hlen]
        rfl
  | removeNode idx =>
      obtain ⟨after, heq, relinks⟩ := removeNode_spec h.closed allowed
      have removes := relinks.removes h allowed
      exact ⟨after, none, by rw [exec, heq]; rfl, ⟨rfl, removes⟩, removes.rings h relinks.len,
        relinks.len⟩
  | insertToNext base idx =>
      obtain ⟨hbase, hidx, hne, hself, hprev⟩ := allowed
      obtain ⟨after, heq, relinks⟩ := insertToNext_spec h.closed hbase hidx
      have hback : list.prev (list.next base) = base := h.prev_next hbase
      have hne' : list.next base ≠ idx := by
        intro hnext
        rw [hnext, hprev] at hback
        exact hne hback
      -- the new node is linked before the node after `base`
      have inserts := Inserts.to_next h hbase (Relinks.inserts h (h.closed base hbase).2 hidx hself
        hne' (by rw [hback]; exact relinks))
      refine ⟨after, none, by rw [exec, heq]; rfl, ⟨rfl, inserts⟩, ?_, relinks.len⟩
      refine inserts.rings h hbase hself (fun m x => ?_) relinks.len
      simp only [List.mem_cons, or_left_comm]
  | insertToPrev base idx =>
      obtain ⟨hbase, hidx, hne, hself, -⟩ := allowed
      obtain ⟨after, heq, relinks⟩ := insertToPrev_spec h.closed hbase hidx
      have inserts := (relinks.inserts h hbase hidx hself hne.symm).to_prev
      refine ⟨after, none, by rw [exec, heq]; rfl, ⟨rfl, inserts⟩, ?_, relinks.len⟩
      exact inserts.rings h hbase hself (fun m x => List.mem_cons) relinks.len

end Call

/-- The calls are allowed, each in the list that those before it leave. -/
def Valid : ArrayLinkedList T → List (Call T) → Prop
  | _, [] => True
  | list, call :: calls =>
      call.Allowed list ∧ ∀ after answer, call.exec list = some (after, answer) → Valid after calls

/-- The links are a permutation throughout the run, and every call returns and does what it
is for. -/
def Correct : ArrayLinkedList T → List (Call T) → Prop
  | list, [] => list.Permutes
  | list, call :: calls =>
      list.Permutes ∧ ∃ after answer, call.exec list = some (after, answer) ∧
        call.Does list after answer ∧ Correct after calls

/-- No `pop` comes when as many items have been popped as have been pushed. -/
def PopsFit : Nat → List (Call T) → Prop
  | _, [] => True
  | len, call :: calls => (call = .pop → 0 < len) ∧ PopsFit (call.lenAfter len) calls

theorem Rings.correct_iff {calls : List (Call T)} (h : list.Rings) (valid : Valid list calls) :
    Correct list calls ↔ PopsFit list.len calls := by
  induction calls generalizing list with
  | nil => exact iff_of_true h.permutes trivial
  | cons call calls ih =>
      by_cases hpop : call = .pop → 0 < list.len
      · obtain ⟨after, answer, heq, does, rings, hlen⟩ := Call.exec_spec h valid.1 hpop
        have hrest := ih rings (valid.2 after answer heq)
        rw [hlen] at hrest
        constructor
        · rintro ⟨-, after', answer', heq', -, correct⟩
          obtain ⟨rfl, rfl⟩ := Prod.mk.inj (Option.some.inj (heq.symm.trans heq'))
          exact ⟨hpop, hrest.mp correct⟩
        · rintro ⟨-, fit⟩
          exact ⟨h.permutes, after, answer, heq, does, hrest.mpr fit⟩
      · -- an empty list has no last index to unlink
        refine iff_of_false ?_ fun fit => hpop fit.1
        rintro ⟨-, after, answer, heq, -⟩
        obtain ⟨rfl, hlen⟩ := Classical.not_imp.mp hpop
        rw [Call.exec, pop, if_pos (by omega)] at heq
        exact absurd heq (Option.some_ne_none _).symm

theorem rings_new : (new : ArrayLinkedList T).Rings := fun i hi => absurd hi (Nat.not_lt_zero i)

/-- The rings are kept as they should be in exactly the runs that pop no empty list. -/
theorem linked_correct_iff (calls : List (Call T)) (valid : Valid new calls) :
    Correct new calls ↔ PopsFit 0 calls :=
  rings_new.correct_iff valid

/-- Two items on one ring, one of them popped. -/
theorem linked_correct_iff_two :
    Correct (new : ArrayLinkedList Nat) [.push 5, .push 7, .insertToPrev 0 1, .pop] ↔
      PopsFit 0 [Call.push 5, .push 7, .insertToPrev 0 1, .pop] := by
  refine linked_correct_iff _ ⟨trivial, ?_⟩
  rintro _ _ ⟨⟩
  refine ⟨trivial, ?_⟩
  rintro _ _ ⟨⟩
  refine ⟨⟨by decide, by decide, by decide, rfl, rfl⟩, ?_⟩
  rintro _ _ ⟨⟩
  exact ⟨trivial, fun _ _ _ => trivial⟩

/-- A `pop` of the empty list panics instead of finding nothing. -/
theorem empty_pop_panics :
    ¬ ∀ calls : List (Call Nat), Valid new calls → Correct new calls := by
  intro h
  obtain ⟨-, after, answer, heq, -⟩ := h [.pop] ⟨trivial, fun _ _ _ => trivial⟩
  exact absurd heq (Option.some_ne_none _).symm

end UniAlloc.ArrayLinkedList
