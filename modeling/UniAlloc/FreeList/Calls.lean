import UniAlloc.FreeList.Preservation

/-!
# Whole calls

A thread that nobody interrupts runs its call of `alloc` or `free` to the end. The call ends
after a bounded number of actions, answers the request it was made for, and leaves the pages
that are live alone.
-/

namespace UniAlloc.FreeList

open Radix DoubleLinkedList

/-- What a call of `alloc` asks for. -/
def Pc.request : Pc → Option Nat
  | .allocScan size _ | .allocSplit size _ _ | .allocBump size => some size
  | _ => none

/-- So many actions are left at most. -/
def Pc.fuel : Pc → Nat
  | .idle => 0
  | .allocScan _ idx => BACKEND_MAX_PAGE - idx + 1
  | .allocSplit .. | .allocBump .. | .freeInsert .. => 1
  | .freeMergeNext .. => 2
  | .freeNext .. => 3
  | .freeMergePrev .. => 4
  | .freePrev .. => 5

/-- The rest of a call, in `n` actions at most; `mapped` is the region `mmap` has to give. A call
that needs a region when there is none is not followed further. -/
def runCall (mapped : Option Nat) : Nat → Heap → Pc → Option (Heap × Event)
  | 0, _, _ => none
  | n + 1, h, pc =>
      if Maps h pc ∧ mapped = none then none
      else do
        let (h, c, e) ← act h (mapped.getD 0) pc
        if c = .idle then some (h, e) else runCall mapped n h c

theorem Pc.fuel_pos {pc : Pc} (running : pc ≠ .idle) : 0 < pc.fuel := by
  cases pc with
  | idle => exact absurd rfl running
  | allocScan size idx => exact Nat.succ_pos _
  | _ => simp [Pc.fuel]

/-- Only `BUMP` maps a region. -/
theorem size_of_maps {h : Heap} {pc : Pc} (hmaps : Maps h pc) :
    ∃ size, pc = .allocBump size ∧ h.bump.Exhausted size := by
  cases pc with
  | allocBump size => exact ⟨size, rfl, hmaps⟩
  | _ => exact False.elim hmaps

section Bump

variable {h h' : Heap} {idx a : Nat} {ans : Option Nat}

theorem removeOne_bump (hrem : removeOne h idx = some (h', ans)) : h'.bump = h.bump := by
  obtain ⟨-, hrem⟩ := Option.ite_none_left_eq_some.mp hrem
  cases hhead : h.lists idx with
  | none =>
      rw [hhead] at hrem
      cases hrem
      rfl
  | some node =>
      simp only [hhead, Option.bind_eq_bind, Option.bind_eq_some_iff] at hrem
      obtain ⟨_, -, _, -, _, -, hrem⟩ := hrem
      cases hrem
      rfl

theorem removeSpecOne_bump (hrem : removeSpecOne h idx a = some (h', ans)) :
    h'.bump = h.bump := by
  obtain ⟨-, hrem⟩ := Option.ite_none_left_eq_some.mp hrem
  obtain ⟨v, -, hrem⟩ := Option.bind_eq_some_iff.mp hrem
  split at hrem
  · obtain ⟨target, -, hrem⟩ := Option.bind_eq_some_iff.mp hrem
    split at hrem
    · split at hrem
      · simp only [Option.bind_eq_bind, Option.bind_eq_some_iff] at hrem
        obtain ⟨_, -, _, -, _, -, hrem⟩ := hrem
        cases hrem
        rfl
      · cases hrem
        rfl
    · cases hrem
      rfl
  · cases hrem
    rfl

theorem insertNew_bump (hins : insertNew h idx a = some h') : h'.bump = h.bump := by
  obtain ⟨ptr, -, hins⟩ := Option.bind_eq_some_iff.mp hins
  obtain ⟨-, hins⟩ := Option.ite_none_left_eq_some.mp hins
  simp only [Option.bind_eq_bind, Option.bind_eq_some_iff] at hins
  obtain ⟨_, -, _, -, _, -, hins⟩ := hins
  cases hins
  rfl

end Bump

/-- An action either leads on with the same request, or ends the call with an answer to it. -/
inductive Goes (mapped : Option Nat) (h : Heap) (pc : Pc) (h' : Heap) : Pc → Event → Prop where
  | on {c} : c ≠ .idle → c.request = pc.request → c.fuel < pc.fuel → h'.bump = h.bump →
      Goes mapped h pc h' c .tau
  | taken {ptr size} : pc.request = some size → h'.bump = h.bump →
      Goes mapped h pc h' .idle (.taken ptr size)
  | carved {ptr size} : pc.request = some size → (h.bump.Exhausted size → mapped ≠ none) →
      h.bump.alloc size (mapped.getD 0) = (h'.bump, .ok ptr) →
      Goes mapped h pc h' .idle (.carved ptr size)
  | failed {size e} : pc.request = some size →
      h.bump.alloc size (mapped.getD 0) = (h'.bump, .error e) → Goes mapped h pc h' .idle .failed
  | freed : pc.request = none → h'.bump = h.bump → Goes mapped h pc h' .idle .freed
  | unmapped {ptr num} : pc.request = none → h'.bump = h.bump →
      Goes mapped h pc h' .idle (.unmapped ptr num)

theorem goes_of_act {h h' : Heap} {mapped : Option Nat} {pc c : Pc} {e : Event}
    (supplied : Maps h pc → mapped ≠ none)
    (next : act h (mapped.getD 0) pc = some (h', c, e)) : Goes mapped h pc h' c e := by
  cases pc with
  | idle => cases next
  | allocScan size idx =>
      obtain ⟨⟨h₁, ans⟩, hrem, next⟩ := Option.bind_eq_some_iff.mp next
      have hidx := (Option.ite_none_left_eq_some.mp hrem).1
      have hbump := removeOne_bump hrem
      cases ans with
      | some ptr =>
          simp only at next
          split at next
          · cases next
            exact .taken rfl hbump
          · cases next
            refine .on (by simp) rfl ?_ hbump
            simp only [Pc.fuel]
            omega
      | none =>
          simp only at next
          split at next
          · cases next
            refine .on (by simp) rfl ?_ hbump
            simp only [Pc.fuel]
            omega
          · cases next
            refine .on (by simp) rfl ?_ hbump
            simp only [Pc.fuel]
            omega
  | allocSplit size parentIdx parent =>
      obtain ⟨h₁, hins, next⟩ := Option.bind_eq_some_iff.mp next
      cases next
      exact .taken rfl (insertNew_bump hins)
  | allocBump size =>
      simp only [act] at next
      split at next
      · next hcall => cases next; exact .carved rfl supplied hcall
      · next hcall => cases next; exact .failed rfl hcall
  | freePrev ptr size =>
      obtain ⟨-, next⟩ := Option.ite_none_left_eq_some.mp next
      obtain ⟨v, -, next⟩ := Option.bind_eq_some_iff.mp next
      split at next
      · cases next
        exact .on (by simp) rfl (by simp [Pc.fuel]) rfl
      · cases next
        exact .on (by simp) rfl (by simp [Pc.fuel]) rfl
  | freeMergePrev ptr size pflag =>
      obtain ⟨-, next⟩ := Option.ite_none_left_eq_some.mp next
      obtain ⟨⟨h₁, prev⟩, hrem, next⟩ := Option.bind_eq_some_iff.mp next
      have hbump := removeSpecOne_bump hrem
      cases prev with
      | some prevPtr =>
          cases next
          exact .on (by simp) rfl (by simp [Pc.fuel]) hbump
      | none =>
          cases next
          exact .on (by simp) rfl (by simp [Pc.fuel]) hbump
  | freeNext ptr size finalPtr finalIdx =>
      obtain ⟨v, -, next⟩ := Option.bind_eq_some_iff.mp next
      split at next
      · cases next
        exact .on (by simp) rfl (by simp [Pc.fuel]) rfl
      · cases next
        exact .on (by simp) rfl (by simp [Pc.fuel]) rfl
  | freeMergeNext ptr size finalPtr finalIdx nflag =>
      obtain ⟨⟨h₁, merged⟩, hrem, next⟩ := Option.bind_eq_some_iff.mp next
      have hbump := removeSpecOne_bump hrem
      cases merged with
      | some nextPtr =>
          cases next
          exact .on (by simp) rfl (by simp [Pc.fuel]) hbump
      | none =>
          cases next
          exact .on (by simp) rfl (by simp [Pc.fuel]) hbump
  | freeInsert finalPtr finalIdx =>
      simp only [act] at next
      split at next
      · obtain ⟨h₁, hins, next⟩ := Option.bind_eq_some_iff.mp next
        cases next
        exact .freed rfl (insertNew_bump hins)
      · cases next
        exact .unmapped rfl rfl

/-- What ends a call ends the calls that lead there. -/
theorem Goes.trans {h₁ h₂ h₃ : Heap} {mapped : Option Nat} {pc c : Pc} {e : Event}
    (first : Goes mapped h₁ pc h₂ c .tau) (last : Goes mapped h₂ c h₃ .idle e) :
    Goes mapped h₁ pc h₃ .idle e := by
  cases first with
  | on running request fuel bump =>
      cases last with
      | on hidle => exact absurd rfl hidle
      | taken hreq hbump => exact .taken (request ▸ hreq) (hbump.trans bump)
      | carved hreq hsupplied hcall =>
          exact .carved (request ▸ hreq) (bump ▸ hsupplied) (bump ▸ hcall)
      | failed hreq hcall => exact .failed (request ▸ hreq) (bump ▸ hcall)
      | freed hreq hbump => exact .freed (request ▸ hreq) (hbump.trans bump)
      | unmapped hreq hbump => exact .unmapped (request ▸ hreq) (hbump.trans bump)

/-- The pages of `keep` are as they were, and what is new in the radix tree is a tag or
nothing. -/
structure Leaves (keep : Multiset Nat) (h h' : Heap) : Prop where
  mem : ∀ x, x / PG_SIZE ∈ keep → h'.mem x = h.mem x
  entry : ∀ p ∈ keep, h'.tree.entry p = h.tree.entry p
  low : ∀ p, h'.tree.entry p = h.tree.entry p ∨ h'.tree.entry p ≤ 0

namespace Leaves

variable {keep : Multiset Nat} {h₁ h₂ h₃ : Heap}

theorem refl (h : Heap) : Leaves keep h h := ⟨fun _ _ => rfl, fun _ _ => rfl, fun _ => .inl rfl⟩

theorem trans (first : Leaves keep h₁ h₂) (second : Leaves keep h₂ h₃) : Leaves keep h₁ h₃ := by
  refine ⟨fun x hx => (second.mem x hx).trans (first.mem x hx),
    fun p hp => (second.entry p hp).trans (first.entry p hp), fun p => ?_⟩
  obtain hsame | hlow := second.low p
  · rw [hsame]
    exact first.low p
  · exact .inr hlow

end Leaves

namespace Inv

variable {ι : Type} [DecidableEq ι] [Fintype ι] {s : State ι} {L : Nat → List Nat} {t : ι}
  {mapped : Nat}

theorem live_not_held (inv : Inv s L) {b : Block} (hb : b ∈ (s.pc t).held) {p : Nat}
    (hp : p ∈ s.livePages) : p ∉ b.pages := by
  have hnodup := inv.nodup
  rw [← inv.total, blocks_eq _ _ _ t, Multiset.add_bind, Multiset.add_bind,
    Multiset.add_bind] at hnodup
  have hdisj := (Multiset.nodup_add.mp (Multiset.nodup_add.mp hnodup).1).2.2
  intro hpb
  exact Multiset.disjoint_left.mp hdisj (Multiset.mem_add.mpr (Or.inl hp))
    (Multiset.mem_bind.mpr ⟨b, hb, hpb⟩)

/-- What an action puts on a list is part of the run in the thread's hands. -/
theorem inserts_held (inv : Inv s L) {b : Block} (hins : (s.pc t).inserts = some b) :
    b.Wf ∧ ∃ c ∈ (s.pc t).held, b.pages ⊆ c.pages := by
  cases hpc : s.pc t with
  | allocSplit size parentIdx parent =>
      rw [hpc] at hins
      obtain rfl := Option.some.inj hins
      have hok := inv.thread t
      rw [hpc] at hok
      obtain ⟨hlt, -⟩ := hok
      have hheld : ⟨parent, parentIdx + 1⟩ ∈ (s.pc t).held := by simp [hpc, Pc.held]
      have wf := inv.wf _ (mem_of_held hheld)
      have hcut : parentIdx + 1 = (originSize size + 1) + (parentIdx - originSize size) := by
        omega
      have hpages := Block.pages_split parent (originSize size + 1) (parentIdx - originSize size)
      rw [hcut] at wf
      rw [Nat.mul_comm PG_SIZE]
      refine ⟨(wf.split (Nat.succ_pos _) (by omega)).2, _, by rw [← hpc]; exact hheld, ?_⟩
      intro p hp
      rw [hcut, hpages]
      exact Multiset.mem_add.mpr (Or.inr hp)
  | freeInsert finalPtr finalIdx =>
      rw [hpc] at hins
      obtain rfl := Option.some.inj hins
      have hheld : ⟨finalPtr, finalIdx + 1⟩ ∈ (s.pc t).held := by simp [hpc, Pc.held]
      exact ⟨inv.wf _ (mem_of_held hheld), _, by rw [← hpc]; exact hheld, fun _ h => h⟩
  | _ =>
      rw [hpc] at hins
      cases hins

theorem insertNew_leaves (inv : Inv s L) {b : Block} (hins : (s.pc t).inserts = some b) {h : Heap}
    (hcall : insertNew s.heap (b.num - 1) b.ptr = some h) : Leaves s.livePages s.heap h := by
  obtain ⟨wf, c, hc, hsub⟩ := inv.inserts_held hins
  have hnum := wf.num_pos
  have hle := wf.num_le
  have hidx : b.num - 1 < BACKEND_MAX_PAGE := by omega
  have hb : (⟨b.ptr, b.num - 1 + 1⟩ : Block) = b := by
    rw [Nat.sub_add_cancel hnum]
  obtain ⟨h', hcall', -, hsame, hentry⟩ := inv.rep.insertNew_spec hidx (hb ▸ wf)
    (by rw [hb]; exact fun p hp => inv.held_not_free hc (hsub hp))
  cases hcall.symm.trans hcall'
  have hout : ∀ p ∈ s.livePages, p ∉ freePages (Function.update L (b.num - 1)
      (b.ptr :: L (b.num - 1))) := by
    intro p hp hfree
    rw [freePages, freeBlocks_push hidx, hb, Multiset.cons_bind, Multiset.mem_add] at hfree
    obtain hfree | hfree := hfree
    · exact inv.live_not_held hc hp (hsub hfree)
    · exact inv.live_not_free hp hfree
  refine ⟨fun x hx => hsame.mem x (hout _ hx), fun p hp => hsame.entry p (hout p hp),
    fun p => ?_⟩
  rw [hentry p]
  split
  · exact .inr (tag_neg hidx).le
  · exact .inl rfl

omit [DecidableEq ι] in
/-- The neighbours a stale tag leads to are never merged. -/
theorem removeSpecOne_leaves (inv : Inv s L) {idx a : Nat} {h : Heap} {ans : Option Nat}
    (hidx : idx < BACKEND_MAX_PAGE) (ha : a < 2 ^ 48) (pos : 0 < a)
    (boundary : Boundary s.carved (blocks s.live L s.pc) a)
    (hrem : removeSpecOne s.heap idx a = some (h, ans)) : Leaves s.livePages s.heap h := by
  have hsame := inv.rep.removeSpecOne_eq hidx ha pos
    fun b hb => boundary.starts b (mem_of_free hb)
  cases hrem.symm.trans hsame
  exact .refl _

/-- No action touches the live pages. -/
theorem act_leaves (inv : Inv s L) {h : Heap} {c : Pc} {e : Event}
    (next : act s.heap mapped (s.pc t) = some (h, c, e)) : Leaves s.livePages s.heap h := by
  have hok := inv.thread t
  cases hpc : s.pc t with
  | idle =>
      rw [hpc] at next
      cases next
  | allocScan size idx =>
      rw [hpc] at next hok
      obtain ⟨⟨h₁, ans⟩, hrem, next⟩ := Option.bind_eq_some_iff.mp next
      have hh : h = h₁ := by
        cases ans <;> simp only at next <;> split at next <;> cases next <;> rfl
      rw [hh]
      cases hL : L idx with
      | nil =>
          cases hrem.symm.trans (inv.rep.removeOne_nil hok.2.2.2 hL)
          exact .refl _
      | cons ptr rest =>
          obtain ⟨h₂, hrem', -, hsame, hentry⟩ := inv.rep.removeOne_cons hok.2.2.2 hL
          cases hrem.symm.trans hrem'
          refine ⟨fun x hx => hsame.mem x (inv.live_not_free hx),
            fun p hp => hsame.entry p (inv.live_not_free hp), fun p => ?_⟩
          rw [hentry p]
          split
          · exact .inr le_rfl
          · exact .inl rfl
  | allocSplit size parentIdx parent =>
      rw [hpc] at next hok
      obtain ⟨h₁, hins, next⟩ := Option.bind_eq_some_iff.mp next
      cases next
      refine inv.insertNew_leaves (t := t) (by rw [hpc]; rfl) ?_
      simpa using hins
  | allocBump size =>
      rw [hpc] at next
      simp only [act] at next
      split at next <;> cases next <;> exact ⟨fun _ _ => rfl, fun _ _ => rfl, fun _ => .inl rfl⟩
  | freePrev ptr size =>
      rw [hpc] at next
      obtain ⟨-, next⟩ := Option.ite_none_left_eq_some.mp next
      obtain ⟨v, -, next⟩ := Option.bind_eq_some_iff.mp next
      split at next <;> cases next <;> exact .refl _
  | freeMergePrev ptr size pflag =>
      rw [hpc] at next hok
      obtain ⟨hpos, hle, hlt, boundary⟩ := hok
      have wf := inv.wf _ (mem_of_held (b := blockOf ptr size) (t := t) (by simp [hpc, Pc.held]))
      have hbound := wf.bound
      simp only [blockOf, PG_SIZE] at hbound
      obtain ⟨-, next⟩ := Option.ite_none_left_eq_some.mp next
      obtain ⟨⟨h₁, prev⟩, hrem, next⟩ := Option.bind_eq_some_iff.mp next
      have hleaves := inv.removeSpecOne_leaves (by omega) (by omega) (by omega) boundary hrem
      cases prev <;> cases next <;> exact hleaves
  | freeNext ptr size finalPtr finalIdx =>
      rw [hpc] at next
      obtain ⟨v, -, next⟩ := Option.bind_eq_some_iff.mp next
      split at next <;> cases next <;> exact .refl _
  | freeMergeNext ptr size finalPtr finalIdx nflag =>
      rw [hpc] at next hok
      obtain ⟨rfl, rfl, hpos, hle, boundary⟩ := hok
      have wf := inv.wf _ (mem_of_held (b := ⟨finalPtr, originSize size + 1⟩) (t := t)
        (by simp [hpc, Pc.held]))
      have hbound := wf.bound
      have hnum := wf.num_le
      have hptr := wf.pos
      simp only [PG_SIZE, BACKEND_MAX_PAGE] at hbound hnum hptr
      obtain ⟨⟨h₁, merged⟩, hrem, next⟩ := Option.bind_eq_some_iff.mp next
      have hleaves := inv.removeSpecOne_leaves (by omega) (by simp only [PG_SIZE]; omega)
        (by omega) boundary hrem
      cases merged <;> cases next <;> exact hleaves
  | freeInsert finalPtr finalIdx =>
      rw [hpc] at next
      simp only [act] at next
      split at next
      · obtain ⟨h₁, hins, next⟩ := Option.bind_eq_some_iff.mp next
        cases next
        exact inv.insertNew_leaves (t := t) (b := ⟨finalPtr, finalIdx + 1⟩) (by rw [hpc]; rfl) hins
      · cases next
        exact .refl _

end Inv

/-- The state after a call of the only thread. -/
def State.returned (s : State Unit) (h : Heap) (e : Event) : State Unit :=
  State.record { s with heap := h, pc := fun _ => .idle } e

/-- A call that has started ends, keeps the invariant, and leaves the live pages alone, unless
`BUMP` needs a region that `mmap` does not have. -/
theorem Inv.runCall {s : State Unit} {L : Nat → List Nat} {mapped : Option Nat} {n : Nat}
    (inv : Inv s L) (fuel : (s.pc ()).fuel ≤ n) (running : s.pc () ≠ .idle)
    (fresh : ∀ size, (s.pc ()).request = some size → s.heap.bump.Exhausted size →
      ∀ start ∈ mapped, FreshRegion s.carved start) :
    (∃ h e L', FreeList.runCall mapped n s.heap (s.pc ()) = some (h, e) ∧
      Goes mapped s.heap (s.pc ()) h .idle e ∧ Inv (s.returned h e) L' ∧
      Leaves s.livePages s.heap h) ∨
    FreeList.runCall mapped n s.heap (s.pc ()) = none ∧ mapped = none ∧
      ∃ size, (s.pc ()).request = some size ∧ s.heap.bump.Exhausted size := by
  induction n generalizing s L with
  | zero => exact absurd (Pc.fuel_pos running) (by omega)
  | succ n ih =>
      by_cases hspent : Maps s.heap (s.pc ()) ∧ mapped = none
      · obtain ⟨size, hpc, hex⟩ := size_of_maps hspent.1
        exact .inr ⟨if_pos hspent, hspent.2, size, by rw [hpc]; rfl, hex⟩
      have hmaps : Maps s.heap (s.pc ()) → FreshRegion s.carved (mapped.getD 0) := by
        intro hmaps
        obtain ⟨size, hpc, hex⟩ := size_of_maps hmaps
        obtain ⟨start, rfl⟩ := Option.ne_none_iff_exists'.mp fun h => hspent ⟨hmaps, h⟩
        exact fresh size (by rw [hpc]; rfl) hex start rfl
      obtain ⟨h, c, e, L', hact, hinv, -⟩ := inv.advances running hmaps
      have hgoes := goes_of_act (fun hmaps hnone => hspent ⟨hmaps, hnone⟩) hact
      have hleaves := inv.act_leaves hact
      have hpc : Function.update s.pc () c = fun _ => c := funext fun _ => Function.update_self ..
      rw [hpc] at hinv
      by_cases hc : c = .idle
      · subst hc
        refine .inl ⟨h, e, L', ?_, hgoes, hinv, hleaves⟩
        simp only [FreeList.runCall, if_neg hspent, hact, Option.bind_eq_bind, Option.bind_some,
          if_true]
      have hrest : FreeList.runCall mapped (n + 1) s.heap (s.pc ()) =
          FreeList.runCall mapped n h c := by
        simp only [FreeList.runCall, if_neg hspent, hact, Option.bind_eq_bind, Option.bind_some,
          if_neg hc]
      have hon := hgoes
      cases hon with
      | on _ request less bump =>
          rw [hrest]
          obtain ⟨h', e', L'', hrun, hgoes', hinv', hleaves'⟩ | ⟨hrun, hnone, size, hsize, hex⟩ :=
            ih hinv (by simp only [State.record]; omega) hc
              fun size hsize hex => fresh size (request ▸ hsize) (bump ▸ hex)
          · exact .inl ⟨h', e', L'', hrun, hgoes.trans hgoes', hinv', hleaves.trans hleaves'⟩
          · exact .inr ⟨hrun, hnone, size, request ▸ hsize, bump ▸ hex⟩
      | _ => exact absurd rfl hc

end UniAlloc.FreeList
