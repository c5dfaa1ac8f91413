import UniAlloc.Cache.Basic
import UniAlloc.Linked.Segment

/-!
# The list of free chunks

Popping from a `Linklist` finds the first node whose address is aligned and unlinks it
through the word of the node before it. The other nodes stay in their order.
-/

namespace UniAlloc.Cache

namespace Linklist

variable {mem : Mem} {align pre now : Nat} {list : Linklist} {l l₁ : List Nat}

/-- `seek` stops at the first aligned node after `pre`, or at the end of the list. -/
theorem seek_spec (align : Nat) {fuel : Nat} (linked : Segment mem (mem pre) l 0)
    (hzero : 0 ∉ l) (hfuel : l.length ≤ fuel) :
    (seek mem align fuel pre (mem pre) = some ((pre :: l).getLast (by simp), 0) ∧
      ∀ x ∈ l, x &&& align - 1 ≠ 0) ∨
    ∃ l₁ pre' x l₂, pre :: l = l₁ ++ pre' :: x :: l₂ ∧ x &&& align - 1 = 0 ∧
      (∀ y ∈ l₁ ++ [pre'], y = pre ∨ y &&& align - 1 ≠ 0) ∧
      seek mem align fuel pre (mem pre) = some (pre', x) := by
  induction l generalizing fuel pre with
  | nil =>
      refine .inl ⟨?_, fun x hx => absurd hx List.not_mem_nil⟩
      rw [Segment.nil_iff] at linked
      cases fuel <;> simp [seek, linked]
  | cons x rest ih =>
      obtain ⟨hx, hrest⟩ := linked
      have hx0 : x ≠ 0 := fun e => hzero (e ▸ List.mem_cons_self)
      obtain ⟨fuel, rfl⟩ : ∃ n, fuel = n + 1 := ⟨fuel - 1, by simp at hfuel; omega⟩
      by_cases halign : x &&& align - 1 = 0
      · refine .inr ⟨[], pre, x, rest, rfl, halign, fun y hy => .inl (List.mem_singleton.mp hy), ?_⟩
        rw [seek, hx, if_pos (.inr halign)]
      · have hstep : seek mem align (fuel + 1) pre (mem pre) = seek mem align fuel x (mem x) := by
          rw [seek, hx, if_neg (by simp [hx0, halign])]
        rw [hstep]
        obtain ⟨hseek, hnone⟩ | ⟨l₁, pre', y, l₂, hl, hy, hbefore, hseek⟩ :=
          ih hrest (fun h => hzero (List.mem_cons_of_mem _ h)) (by simpa using hfuel)
        · refine .inl ⟨by rw [hseek, List.getLast_cons (List.cons_ne_nil _ _)], fun y hy => ?_⟩
          obtain rfl | hy := List.mem_cons.mp hy
          · exact halign
          · exact hnone y hy
        · refine .inr ⟨pre :: l₁, pre', y, l₂, by rw [hl, List.cons_append], hy, ?_, hseek⟩
          intro z hz
          obtain rfl | hz := List.mem_cons.mp hz
          · exact .inl rfl
          · exact .inr ((hbefore z hz).elim (fun heq => heq ▸ halign) id)

/-- Popping unlinks an aligned node, or finds that there is none. -/
theorem popUncheckedAligned_spec (align : Nat) (linked : Segment mem list.link l 0)
    (length : list.length = l.length) (nodup : l.Nodup) (hzero : 0 ∉ l) (hne : l ≠ []) :
    (list.popUncheckedAligned mem align = some (list, mem, 0) ∧
      ∀ x ∈ l, x &&& align - 1 ≠ 0) ∨
    ∃ list' mem' x l₁ l₂, list.popUncheckedAligned mem align = some (list', mem', x) ∧
      l = l₁ ++ x :: l₂ ∧ x &&& align - 1 = 0 ∧ (∀ y ∈ l₁, y &&& align - 1 ≠ 0) ∧
      Segment mem' list'.link (l₁ ++ l₂) 0 ∧
      list'.length = (l₁ ++ l₂).length ∧ ∀ a, a ∉ l → mem' a = mem a := by
  obtain ⟨first, rest, rfl⟩ := List.exists_cons_of_ne_nil hne
  obtain ⟨hlink, hrest⟩ := linked
  have hlen : list.length ≠ 0 := by simp [length]
  have hfirst : list.link ≠ 0 := fun e => hzero (hlink ▸ e ▸ List.mem_cons_self)
  rw [popUncheckedAligned, if_neg hlen]
  simp only [if_neg hfirst]
  rw [hlink]
  by_cases halign : first &&& align - 1 = 0
  · refine .inr ⟨_, _, first, [], rest, if_pos halign, rfl, halign,
      fun y hy => absurd hy List.not_mem_nil, hrest, ?_, fun _ _ => rfl⟩
    simp [length]
  · rw [if_neg halign]
    have hfuel : rest.length ≤ list.length := by simp [length]
    obtain ⟨hseek, hnone⟩ | ⟨l₁, pre, x, l₂, hl, hx, hbefore, hseek⟩ :=
      seek_spec align hrest (fun h => hzero (List.mem_cons_of_mem _ h)) hfuel
    · refine .inl ⟨by rw [hseek]; rfl, fun y hy => ?_⟩
      obtain rfl | hy := List.mem_cons.mp hy
      · exact halign
      · exact hnone y hy
    · have hx0 : x ≠ 0 := by
        rintro rfl
        exact hzero (hl ▸ by simp)
      refine .inr ⟨⟨first, list.length - 1⟩, Function.update mem pre (mem x), x, l₁ ++ [pre], l₂,
        ?_, by simp [hl], hx, ?_, ?_, ?_, fun a ha => Function.update_of_ne ?_ _ _⟩
      · rw [hseek]
        exact if_neg hx0
      · exact fun y hy => (hbefore y hy).elim (fun heq => heq ▸ halign) id
      · have hall : Segment mem first ((l₁ ++ [pre]) ++ x :: l₂) 0 := by
          have : Segment mem first (first :: rest) 0 := ⟨rfl, hrest⟩
          rwa [hl, List.append_cons] at this
        obtain ⟨b, hinit, hb, htail⟩ := Segment.append_iff.mp hall
        rw [hl, List.append_cons, List.nodup_append] at nodup
        refine Segment.append_iff.mpr ⟨mem x, hinit.redirect nodup.1 (mem x), ?_⟩
        refine htail.congr fun y hy => Function.update_of_ne ?_ _ _
        rintro rfl
        exact nodup.2.2 y (by simp) y (List.mem_cons_of_mem _ hy) rfl
      · have := congrArg List.length hl
        simp only [List.length_cons, List.length_append, List.length_nil] at this length ⊢
        omega
      · rintro rfl
        exact ha (hl ▸ by simp)

/-- The list is linked through `nodes`, and its length is their number. -/
structure Shows (mem : Mem) (list : Linklist) (nodes : List Nat) : Prop where
  linked : Segment mem list.link nodes 0
  length : list.length = nodes.length

/-- The calls on a list, and the writes of those who own the blocks that are not on it. -/
inductive Call where
  | push (ptr : Nat)
  | popAligned (align : Nat)
  | store (addr val : Nat)

namespace Call

def exec (list : Linklist) (mem : Mem) : Call → Option (Linklist × Mem × Nat)
  | push ptr =>
      let (list, mem) := list.pushUnchecked mem ptr
      some (list, mem, 0)
  | popAligned align => list.popUncheckedAligned mem align
  | store addr val => some (list, Function.update mem addr val, 0)

/-- A block that is pushed is not null and not on the list yet. -/
def Allowed (nodes : List Nat) : Call → Prop
  | push ptr => ptr ≠ 0 ∧ ptr ∉ nodes
  | popAligned align => ∃ k, align = 2 ^ k
  | store addr _ => addr ∉ nodes

/-- The nodes after a call. -/
def nodesAfter (nodes : List Nat) : Call → List Nat
  | push ptr => ptr :: nodes
  | popAligned align => nodes.eraseP (align ∣ ·)
  | store _ _ => nodes

/-- Popping answers with the first aligned node, or with null and no change. -/
def Does (list : Linklist) (mem : Mem) (nodes : List Nat) (list' : Linklist) (mem' : Mem)
    (ans : Nat) : Call → Prop
  | popAligned align =>
      ans = (nodes.find? (align ∣ ·)).getD 0 ∧
        ((∀ x ∈ nodes, ¬align ∣ x) → list' = list ∧ mem' = mem)
  | _ => True

end Call

theorem and_pred_eq_zero_iff (x k : Nat) : x &&& 2 ^ k - 1 = 0 ↔ 2 ^ k ∣ x := by
  rw [Nat.and_two_pow_sub_one_eq_mod, Nat.dvd_iff_mod_eq_zero]

/-- Popping, for an alignment that is a power of two. -/
theorem popAligned_spec {nodes : List Nat} (shows : Shows mem list nodes) (nodup : nodes.Nodup)
    (hzero : 0 ∉ nodes) (k : Nat) : ∃ list' mem' ans,
      list.popUncheckedAligned mem (2 ^ k) = some (list', mem', ans) ∧
      (Call.popAligned (2 ^ k)).Does list mem nodes list' mem' ans ∧
      Shows mem' list' (nodes.eraseP (2 ^ k ∣ ·)) := by
  by_cases hne : nodes = []
  · subst hne
    have hlen : list.length = 0 := shows.length
    refine ⟨list, mem, 0, ?_, ⟨rfl, fun _ => ⟨rfl, rfl⟩⟩, shows⟩
    rw [popUncheckedAligned, if_pos hlen]
  · obtain ⟨hpop, hnone⟩ |
        ⟨list', mem', x, l₁, l₂, hpop, hnodes, hx, hbefore, hlinked, hlength, -⟩ :=
      popUncheckedAligned_spec (2 ^ k) shows.linked shows.length nodup hzero hne
    · have hnone' : ∀ x ∈ nodes, ¬2 ^ k ∣ x := fun x hx hdvd =>
        hnone x hx ((and_pred_eq_zero_iff x k).mpr hdvd)
      refine ⟨list, mem, 0, hpop, ⟨?_, fun _ => ⟨rfl, rfl⟩⟩, ?_⟩
      · rw [List.find?_eq_none.mpr (by simpa using hnone')]
        rfl
      · rwa [List.eraseP_of_forall_not (by simpa using hnone')]
    · rw [and_pred_eq_zero_iff] at hx
      have hbefore' : ∀ y ∈ l₁, ¬2 ^ k ∣ y := fun y hy hdvd =>
        hbefore y hy ((and_pred_eq_zero_iff y k).mpr hdvd)
      refine ⟨list', mem', x, hpop, ⟨?_, fun hnone => ?_⟩, ?_⟩
      · rw [hnodes, List.find?_append, List.find?_eq_none.mpr (by simpa using hbefore'),
          List.find?_cons_of_pos (by simpa using hx)]
        rfl
      · exact absurd hx (hnone x (hnodes ▸ List.mem_append_right l₁ List.mem_cons_self))
      · rw [hnodes, List.eraseP_append_right _ (by simpa using hbefore'),
          List.eraseP_cons_of_pos (by simpa using hx)]
        exact ⟨hlinked, hlength⟩

theorem Call.exec_spec {nodes : List Nat} {call : Call} (shows : Shows mem list nodes)
    (nodup : nodes.Nodup) (hzero : 0 ∉ nodes) (allowed : call.Allowed nodes) :
    (∃ list' mem' ans, call.exec list mem = some (list', mem', ans) ∧
      call.Does list mem nodes list' mem' ans ∧ Shows mem' list' (call.nodesAfter nodes)) ∧
      (call.nodesAfter nodes).Nodup ∧ 0 ∉ call.nodesAfter nodes := by
  cases call with
  | push ptr =>
      obtain ⟨hptr, hnew⟩ := allowed
      refine ⟨⟨_, _, _, rfl, trivial, ⟨rfl, ?_⟩, congrArg (· + 1) shows.length⟩,
        List.nodup_cons.mpr ⟨hnew, nodup⟩, ?_⟩
      · -- the word of the new node links to the old list
        rw [Function.update_self]
        refine shows.linked.congr fun y hy => Function.update_of_ne ?_ _ _
        rintro rfl
        exact hnew hy
      · rintro (_ | ⟨_, hmem⟩)
        · exact hptr rfl
        · exact hzero hmem
  | popAligned align =>
      obtain ⟨k, rfl⟩ := allowed
      refine ⟨popAligned_spec shows nodup hzero k, nodup.eraseP _, fun hmem => ?_⟩
      exact hzero (List.mem_of_mem_eraseP hmem)
  | store addr val =>
      refine ⟨⟨_, _, _, rfl, trivial, ?_, shows.length⟩, nodup, hzero⟩
      refine shows.linked.congr fun y hy => Function.update_of_ne ?_ _ _
      rintro rfl
      exact allowed hy

/-- The calls are allowed, each for the nodes that those before it leave. -/
def Valid : List Nat → List Call → Prop
  | _, [] => True
  | nodes, call :: calls => call.Allowed nodes ∧ Valid (call.nodesAfter nodes) calls

/-- Throughout the run the list shows its nodes, and every call returns and does what it is
for. -/
def Correct : Linklist → Mem → List Nat → List Call → Prop
  | list, mem, nodes, [] => Shows mem list nodes
  | list, mem, nodes, call :: calls =>
      Shows mem list nodes ∧ ∃ list' mem' ans, call.exec list mem = some (list', mem', ans) ∧
        call.Does list mem nodes list' mem' ans ∧ Correct list' mem' (call.nodesAfter nodes) calls

theorem Shows.correct {nodes : List Nat} {calls : List Call} (shows : Shows mem list nodes)
    (nodup : nodes.Nodup) (hzero : 0 ∉ nodes) (valid : Valid nodes calls) :
    Correct list mem nodes calls := by
  induction calls generalizing list mem nodes with
  | nil => exact shows
  | cons call calls ih =>
      obtain ⟨⟨list', mem', ans, hexec, does, shows'⟩, nodup', hzero'⟩ :=
        Call.exec_spec shows nodup hzero valid.1
      exact ⟨shows, list', mem', ans, hexec, does, ih shows' nodup' hzero' valid.2⟩

/-- Every list that is built by pushing blocks hands out the first block that is aligned, keeps
the others in their order, and knows its length. -/
theorem pop_finds_first (mem : Mem) (calls : List Call) (valid : Valid [] calls) :
    Correct new mem [] calls :=
  Shows.correct ⟨rfl, rfl⟩ List.nodup_nil List.not_mem_nil valid

/-- Three blocks, of which the second is the first on a page boundary. -/
theorem pop_finds_first_three : Correct new (fun _ => 0) []
    [.push 0x3000, .push 0x2000, .push 0x1008, .popAligned 4096, .popAligned 8192] :=
  pop_finds_first _ _ ⟨⟨by decide, by decide⟩, ⟨by decide, by decide⟩, ⟨by decide, by decide⟩,
    ⟨12, rfl⟩, ⟨13, rfl⟩, trivial⟩

end Linklist

end UniAlloc.Cache
