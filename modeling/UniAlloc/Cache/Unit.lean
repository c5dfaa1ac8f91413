import UniAlloc.Cache.Linklist
import Mathlib.Data.Multiset.AddSub

/-!
# What a unit holds

The chunks of a unit are the nodes of its list and the chunks of its row. The
operations of the unit move chunks from the row to the list and hand out at most one
of them; they write to no other word.
-/

namespace UniAlloc.Cache

open Slab

namespace ThreadCacheUnit

/-- The chunks of the row. -/
def row (unit : ThreadCacheUnit) : List Nat :=
  (List.range unit.bumpCount.toNat).map fun i => unit.bumpPtr + i * asUsize unit.bumpUnit

/-- All chunks of a unit whose list has the nodes `nodes`. -/
def share (unit : ThreadCacheUnit) (nodes : List Nat) : Multiset Nat := ↑(nodes ++ unit.row)

/-- `nodes` are the nodes of the list. -/
structure Lists (mem : Mem) (unit : ThreadCacheUnit) (nodes : List Nat) : Prop where
  linked : Segment mem unit.list.link nodes 0
  length : unit.list.length = nodes.length

variable {mem mem' : Mem} {unit : ThreadCacheUnit} {nodes : List Nat} {align x : Nat}

theorem Lists.congr (h : Lists mem unit nodes) (same : ∀ x ∈ nodes, mem' x = mem x) :
    Lists mem' unit nodes :=
  ⟨h.linked.congr same, h.length⟩

@[simp] theorem lists_new : Lists mem new [] := ⟨rfl, rfl⟩

@[simp] theorem row_new : row new = [] := rfl

theorem row_eq_cons {n : Nat} (h : unit.bumpCount.toNat = n + 1) :
    unit.row = unit.bumpPtr :: unit.advance.row ∧ unit.advance.bumpCount.toNat = n := by
  have hcount : (unit.bumpCount - 1).toNat = n := by omega
  refine ⟨?_, hcount⟩
  simp only [row, advance, h, hcount, List.range_succ_eq_map, List.map_cons, List.map_map,
    Nat.zero_mul, Nat.add_zero]
  congr 2
  funext i
  simp only [Function.comp_apply, Nat.succ_mul]
  omega

/-- A freed chunk becomes the first node. -/
theorem Lists.free (h : Lists mem unit nodes) (hx : x ∉ nodes) :
    Lists (unit.free mem x).2 (unit.free mem x).1 (x :: nodes) := by
  refine ⟨⟨rfl, ?_⟩, congrArg (· + 1) h.length⟩
  refine Segment.congr ?_ fun y hy => Function.update_of_ne ?_ _ _
  · simpa [ThreadCacheUnit.free, Linklist.pushUnchecked] using h.linked
  · rintro rfl
    exact hx hy

theorem free_mem (ptr : Nat) {a : Nat} (ha : a ≠ ptr) : (unit.free mem ptr).2 a = mem a :=
  Function.update_of_ne ha _ _

theorem share_free (mem : Mem) (unit : ThreadCacheUnit) (nodes : List Nat) (ptr : Nat) :
    (unit.free mem ptr).1.share (ptr :: nodes) = ptr ::ₘ unit.share nodes := rfl

theorem Lists.advance (h : Lists mem unit nodes) : Lists mem unit.advance nodes := ⟨h.1, h.2⟩

/-- The row joins the list, last chunk first. -/
theorem flushLoop_spec {n : Nat} (h : Lists mem unit nodes) (hn : unit.bumpCount.toNat = n)
    (nodup : (nodes ++ unit.row).Nodup) :
    Lists (flushLoop n unit mem).2 (flushLoop n unit mem).1 (unit.row.reverse ++ nodes) ∧
      (flushLoop n unit mem).1.row = [] ∧
      ∀ a ∉ unit.row, (flushLoop n unit mem).2 a = mem a := by
  induction n generalizing unit mem nodes with
  | zero =>
      have hrow : unit.row = [] := by simp [row, hn]
      rw [hrow]
      exact ⟨h, hrow, fun _ _ => rfl⟩
  | succ n ih =>
      obtain ⟨hrow, hcount⟩ := row_eq_cons hn
      rw [hrow, List.nodup_middle] at nodup
      have hfirst : unit.bumpPtr ∉ nodes := fun hmem =>
        (List.nodup_cons.mp nodup).1 (List.mem_append_left _ hmem)
      obtain ⟨lists', hrow', hmem'⟩ := ih (h.free hfirst).advance hcount nodup
      refine ⟨?_, hrow', fun a ha => ?_⟩
      · rw [hrow, List.reverse_cons, List.append_assoc]
        exact lists'
      · rw [hrow, List.mem_cons, not_or] at ha
        exact (hmem' a ha.2).trans (free_mem _ ha.1)

theorem flush_spec (h : Lists mem unit nodes) (nodup : (unit.share nodes).Nodup) :
    ∃ nodes', Lists (unit.flush mem).2 (unit.flush mem).1 nodes' ∧
      (unit.flush mem).1.row = [] ∧ (unit.flush mem).1.share nodes' = unit.share nodes ∧
      ∀ a ∉ unit.share nodes, (unit.flush mem).2 a = mem a := by
  obtain ⟨lists', hrow, hmem⟩ := flushLoop_spec h rfl (Multiset.coe_nodup.mp nodup)
  refine ⟨_, lists', hrow, ?_, fun a ha => hmem a fun hrow => ha (by simp [share, hrow])⟩
  rw [share, flush, hrow, List.append_nil, share, Multiset.coe_eq_coe]
  exact List.perm_append_comm.trans (List.Perm.append_left _ (List.reverse_perm _))

/-- The loop stops once it has an answer. -/
theorem bumpLoop_of_ne (align n : Nat) {ans : Nat} (h : ans ≠ 0) :
    bumpLoop align n unit mem ans = (unit, mem, ans) := by
  cases n with
  | zero => rfl
  | succ n => exact if_neg h

/-- The loop takes the first aligned chunk of the row, and moves those before it to the list. -/
theorem bumpLoop_spec (align : Nat) {n : Nat} (h : Lists mem unit nodes)
    (hn : unit.bumpCount.toNat = n) (nodup : (nodes ++ unit.row).Nodup) (hzero : 0 ∉ unit.row) :
    ∃ unit' mem' ans nodes', bumpLoop align n unit mem 0 = (unit', mem', ans) ∧
      Lists mem' unit' nodes' ∧ (∀ a ∉ unit.row, mem' a = mem a) ∧
      (ans = 0 ∧ nodes' = unit.row.reverse ++ nodes ∧ unit'.row = [] ∧
          (∀ x ∈ unit.row, x &&& align - 1 ≠ 0) ∨
        ans ≠ 0 ∧ ans &&& align - 1 = 0 ∧
          unit.share nodes = ans ::ₘ unit'.share nodes') := by
  induction n generalizing unit mem nodes with
  | zero =>
      have hrow : unit.row = [] := by simp [row, hn]
      refine ⟨_, _, _, nodes, rfl, h, fun _ _ => rfl, .inl ⟨rfl, ?_, hrow, ?_⟩⟩ <;> simp [hrow]
  | succ n ih =>
      obtain ⟨hrow, hcount⟩ := row_eq_cons hn
      have hptr : unit.bumpPtr ≠ 0 := fun e => hzero (hrow ▸ e ▸ List.mem_cons_self)
      by_cases halign : unit.bumpPtr &&& align - 1 = 0
      · refine ⟨unit.advance, mem, unit.bumpPtr, nodes, ?_, h.advance, fun _ _ => rfl,
          .inr ⟨hptr, halign, ?_⟩⟩
        · rw [bumpLoop, if_pos rfl, if_pos halign, bumpLoop_of_ne _ _ hptr]
        · rw [share, share, hrow, Multiset.cons_coe, Multiset.coe_eq_coe]
          exact List.perm_middle
      · rw [hrow, List.nodup_middle] at nodup
        have hfirst : unit.bumpPtr ∉ nodes := fun hmem =>
          (List.nodup_cons.mp nodup).1 (List.mem_append_left _ hmem)
        obtain ⟨unit', mem', ans, nodes', hloop, lists', hmem', hans⟩ :=
          ih (h.free hfirst).advance hcount nodup
            (fun h0 => hzero (hrow ▸ List.mem_cons_of_mem _ h0))
        refine ⟨unit', mem', ans, nodes', ?_, lists', fun a ha => ?_, ?_⟩
        · rw [bumpLoop, if_pos rfl, if_neg halign]
          exact hloop
        · rw [hrow, List.mem_cons, not_or] at ha
          exact (hmem' a ha.2).trans (free_mem _ ha.1)
        · obtain ⟨rfl, hnodes, hempty, hnone⟩ | ⟨hne, hal, hshare⟩ := hans
          · refine .inl ⟨rfl, ?_, hempty, ?_⟩
            · rw [hnodes, hrow, List.reverse_cons, List.append_assoc]
              rfl
            · rw [hrow]
              exact List.forall_mem_cons.mpr ⟨halign, hnone⟩
          · refine .inr ⟨hne, hal, ?_⟩
            rw [← hshare, share, share, hrow, Multiset.coe_eq_coe]
            exact List.perm_middle

/-- The local part of an allocation hands out one aligned chunk, or finds that the unit has
none. Then the row is empty, and so is the list if any chunk would do. -/
theorem allocateLocal_spec (h : Lists mem unit nodes) (nodup : (unit.share nodes).Nodup)
    (hzero : 0 ∉ unit.share nodes) (align : Nat) :
    ∃ unit' mem' ans nodes', unit.allocateLocal mem align = some (unit', mem', ans) ∧
      Lists mem' unit' nodes' ∧ (∀ a ∉ unit.share nodes, mem' a = mem a) ∧
      (ans = 0 ∧ unit'.share nodes' = unit.share nodes ∧ unit'.row = [] ∧
          (∀ x ∈ unit.share nodes, x &&& align - 1 ≠ 0) ∨
        ans ≠ 0 ∧ ans &&& align - 1 = 0 ∧
          unit.share nodes = ans ::ₘ unit'.share nodes') := by
  rw [share, Multiset.mem_coe, List.mem_append, not_or] at hzero
  have nodup' : (nodes ++ unit.row).Nodup := Multiset.coe_nodup.mp nodup
  have bump : ∀ (_ : ∀ x ∈ nodes, x &&& align - 1 ≠ 0),
      ∃ unit' mem' ans nodes', bumpLoop align unit.bumpCount.toNat unit mem 0 =
        (unit', mem', ans) ∧
      Lists mem' unit' nodes' ∧ (∀ a ∉ unit.share nodes, mem' a = mem a) ∧
      (ans = 0 ∧ unit'.share nodes' = unit.share nodes ∧ unit'.row = [] ∧
          (∀ x ∈ unit.share nodes, x &&& align - 1 ≠ 0) ∨
        ans ≠ 0 ∧ ans &&& align - 1 = 0 ∧
          unit.share nodes = ans ::ₘ unit'.share nodes') := by
    intro hnodes
    obtain ⟨unit', mem', ans, nodes', hloop, lists', hmem', hans⟩ :=
      bumpLoop_spec align h rfl nodup' hzero.2
    refine ⟨unit', mem', ans, nodes', hloop, lists', fun a ha => hmem' a fun hrow => ha ?_, ?_⟩
    · simp [share, hrow]
    · refine hans.imp_left fun ⟨hans, heq, hrow, hnone⟩ => ⟨hans, ?_, hrow, fun x hx => ?_⟩
      · rw [share, hrow, List.append_nil, heq, share, Multiset.coe_eq_coe]
        exact List.perm_append_comm.trans (List.Perm.append_left _ (List.reverse_perm _))
      · rw [share, Multiset.mem_coe, List.mem_append] at hx
        exact hx.elim (hnodes x) (hnone x)
  rw [allocateLocal]
  by_cases hempty : nodes = []
  · subst hempty
    rw [if_neg (by simp [h.length])]
    obtain ⟨unit', mem', ans, nodes', hloop, hrest⟩ :=
      bump fun x hx => absurd hx List.not_mem_nil
    refine ⟨unit', mem', ans, nodes', ?_, hrest⟩
    rw [← hloop]
    rfl
  · rw [if_pos (by rw [h.length]; exact List.length_pos_of_ne_nil hempty)]
    obtain ⟨hpop, hnone⟩ |
        ⟨list', mem', x, l₁, l₂, hpop, hnodes, hx, -, hlinked, hlength, hmem⟩ :=
      Linklist.popUncheckedAligned_spec align h.linked h.length (List.nodup_append.mp nodup').1
        hzero.1 hempty
    · obtain ⟨unit', mem', ans, nodes', hloop, hrest⟩ := bump hnone
      refine ⟨unit', mem', ans, nodes', ?_, hrest⟩
      rw [hpop, ← hloop]
      rfl
    · have hx0 : x ≠ 0 := by
        rintro rfl
        exact hzero.1 (hnodes ▸ by simp)
      refine ⟨{ unit with list := list' }, mem', x, l₁ ++ l₂, ?_, ⟨hlinked, hlength⟩,
        fun a ha => hmem a fun hn => ha ?_, .inr ⟨hx0, hx, ?_⟩⟩
      · rw [hpop]
        exact if_pos hx0
      · simp [share, hn]
      · rw [share, share, hnodes, Multiset.cons_coe, Multiset.coe_eq_coe, List.append_assoc,
          List.append_assoc]
        exact List.perm_middle

/-- The row that begins after the first chunk of a batch. -/
theorem row_install {ptr n stride : Nat} (hn : n < 2 ^ 31) (hstride : stride < 2 ^ 31) :
    row { unit with bumpCount := asI32 n, bumpUnit := asI32 stride, bumpPtr := ptr + stride } =
      (List.range n).map fun i => ptr + (i + 1) * stride := by
  have hcount : (asI32 n).toNat = n := by
    have := asUsize_asI32 hn
    have hn' : n < 2147483648 := hn
    have : asI32 n = n := by
      refine Int.bmod_eq_of_le ?_ ?_
      · norm_num
      · norm_num
        omega
    omega
  simp only [row, hcount, asUsize_asI32 hstride, Nat.succ_mul]
  exact List.map_congr_left fun i _ => by omega

end ThreadCacheUnit

end UniAlloc.Cache
