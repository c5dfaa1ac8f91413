import UniAlloc.FreeList.Basic
import UniAlloc.Linked.Doubly

/-!
# Nodes in memory

A node takes four words, wherever it lies. The rules for the ends of a list whose nodes do
not overlap say what the list becomes and which words are written.
-/

namespace UniAlloc.FreeList.DoubleLinkedList

/-- The words of a node. -/
def InNode (a x : Nat) : Prop := a ≤ x ∧ x < a + 32

/-- Nodes that do not overlap. -/
def NodeApart (a b : Nat) : Prop := a + 32 ≤ b ∨ b + 32 ≤ a

variable {mem mem' : Mem} {a b x : Nat} {v : Option Nat} {before : Option Nat} {l rest : List Nat}

theorem NodeApart.symm (h : NodeApart a b) : NodeApart b a := h.elim .inr .inl

theorem writePrev_outside (v : Option Nat) (h : ¬InNode a x) : writePrev mem a v x = mem x := by
  rw [InNode] at h
  exact Mem.writeOption_of_ne mem v (by omega) (by omega)

theorem writeNext_outside (v : Option Nat) (h : ¬InNode a x) : writeNext mem a v x = mem x := by
  rw [InNode] at h
  exact Mem.writeOption_of_ne mem v (by omega) (by omega)

theorem NodeApart.not_inNode (h : NodeApart a b) {k : Nat} (hk : k < 32) : ¬InNode a (b + k) := by
  rw [NodeApart] at h
  rw [InNode]
  omega

/-- Reading a node in two memories that agree on its words. -/
theorem read_congr (same : ∀ k < 32, mem' (a + k) = mem (a + k)) :
    readPrev mem' a = readPrev mem a ∧ readNext mem' a = readNext mem a :=
  ⟨Mem.readOption_congr mem (same 0 (by decide)) (same 8 (by decide)),
    Mem.readOption_congr mem (same 16 (by decide)) (same 24 (by decide))⟩

/-- A list is where it was if no word of its nodes is written. -/
theorem linked_congr (h : Linked (readPrev mem) (readNext mem) before l)
    (same : ∀ a ∈ l, ∀ k < 32, mem' (a + k) = mem (a + k)) :
    Linked (readPrev mem') (readNext mem') before l :=
  h.congr (fun a ha => (read_congr (same a ha)).1) fun a ha => (read_congr (same a ha)).2

/-- The back link of the first node is cleared. -/
theorem linked_writePrev (h : Linked (readPrev mem) (readNext mem) before (b :: rest))
    (apart : ∀ x ∈ rest, NodeApart b x) (v : Option Nat) :
    Linked (readPrev (writePrev mem b v)) (readNext (writePrev mem b v)) v (b :: rest) := by
  have same : ∀ x ∈ rest, ∀ k < 32, writePrev mem b v (x + k) = mem (x + k) := fun x hx k hk =>
    writePrev_outside v ((apart x hx).not_inNode hk)
  refine h.redirect (fun x hx => ?_) (fun x hx => (read_congr (same x hx)).1) fun x hx => ?_
  · obtain rfl : b = x := Option.some.inj hx
    exact readPrev_writePrev mem v
  · obtain rfl | hx := List.mem_cons.mp hx
    · exact readNext_writePrev mem v
    · exact (read_congr (same x hx)).2

/-- The first node is unlinked, and the back link of the next one is written. -/
theorem removeCurrent_head (linked : Linked (readPrev mem) (readNext mem) none (a :: rest))
    (pos : ∀ x ∈ rest, 0 < x) (apart : rest.Pairwise NodeApart) :
    ∃ mem', removeCurrent mem a = some (mem', rest.head?) ∧
      Linked (readPrev mem') (readNext mem') none rest ∧
      ∀ x, (∀ b ∈ rest.head?, ¬InNode b x) → mem' x = mem x := by
  obtain ⟨hprev, hnext, hrest⟩ := linked
  cases rest with
  | nil => exact ⟨mem, by simp [removeCurrent, hprev, hnext], trivial, fun _ _ => rfl⟩
  | cons b tail =>
      refine ⟨writePrev mem b none, ?_,
        linked_writePrev hrest (List.pairwise_cons.mp apart).1 none,
        fun x hx => writePrev_outside none (hx b rfl)⟩
      simp [removeCurrent, hprev, hnext, getRef_of_pos (pos b List.mem_cons_self)]

/-- A new node becomes the first one. -/
theorem pushLocked_head (linked : Linked (readPrev mem) (readNext mem) none l) (pos : 0 < a)
    (apart : (a :: l).Pairwise NodeApart) :
    ∃ mem', pushLocked (writeNew mem a) l.head? a = some mem' ∧
      Linked (readPrev mem') (readNext mem') none (a :: l) ∧
      ∀ x, ¬InNode a x → (∀ b ∈ l.head?, ¬InNode b x) → mem' x = mem x := by
  obtain ⟨hfirst, hl⟩ := List.pairwise_cons.mp apart
  have hnew : ∀ x, ¬InNode a x → writeNew mem a x = mem x := fun x hx => by
    rw [writeNew, writeNext_outside _ hx, writePrev_outside _ hx]
  have linked' := linked_congr linked fun x hx k hk =>
    hnew (x + k) ((hfirst x hx).not_inNode hk)
  cases l with
  | nil =>
      refine ⟨writeNew mem a, rfl, ⟨?_, ?_, trivial⟩, fun x hx _ => hnew x hx⟩
      · simp [writeNew]
      · simp [writeNew]
  | cons r tail =>
      have hra := hfirst r List.mem_cons_self
      have pushed := linked_writePrev linked' (List.pairwise_cons.mp hl).1 (some a)
      refine ⟨writePrev (writeNext (writePrev (writeNew mem a) r (some a)) a (some r)) a none,
        ?_, ⟨readPrev_writePrev _ none, ?_, ?_⟩, fun x hx hr => ?_⟩
      · simp [pushLocked, pushBeforeHead, getRef_of_pos pos]
      · rw [readNext_writePrev, readNext_writeNext]
        rfl
      · refine linked_congr pushed fun x hx k hk => ?_
        have hout := (hfirst x hx).not_inNode hk
        rw [writePrev_outside _ hout, writeNext_outside _ hout]
      · rw [writePrev_outside _ hx, writeNext_outside _ hx, writePrev_outside _ (hr r rfl),
          hnew x hx]

end UniAlloc.FreeList.DoubleLinkedList
