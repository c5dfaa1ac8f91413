import UniAlloc.FreeList.Preservation

/-!
# Free runs are never merged

`free` probes the tags of both neighbours, but the validity test of
`remove_spec_one` compares the successor of the neighbour's node with the node
itself and never succeeds. A single thread therefore leaves adjacent free runs
behind as soon as it frees a run next to a tagged page; as long as it never does,
no two free runs are adjacent.
-/

namespace UniAlloc.FreeList

open DoubleLinkedList Transition

/-- The address behind a run. -/
def Block.stop (b : Block) : Nat := b.ptr + b.num * PG_SIZE

/-- No free run starts where another one ends. -/
def NoAdjacent (L : Nat → List Nat) : Prop :=
  ∀ b ∈ freeBlocks L, ∀ c ∈ freeBlocks L, b.stop ≠ c.ptr

/-- Neither the page in front of a run nor the page behind it carries a tag. -/
def Lonely (h : Heap) (b : Block) : Prop :=
  0 ≤ h.tree.entry (b.ptr / PG_SIZE - 1) ∧ 0 ≤ h.tree.entry (b.ptr / PG_SIZE + b.num)

/-- The steps of a single thread that frees a run only between pages without tags. -/
def LonelyStep (s : State Unit) (a : Unit × Event) (s' : State Unit) : Prop :=
  Step s a s' ∧ ∀ ptr size, a.2 = .callFree ptr size → Lonely s.heap (blockOf ptr size)

variable {s : State Unit} {L L' : Nat → List Nat}

/-- The free runs are apart, and stay so when the thread returns what it holds. -/
structure Spread (L : Nat → List Nat) (pc : Pc) : Prop where
  free : NoAdjacent L
  behind : ∀ b ∈ pc.held, ∀ c ∈ freeBlocks L, b.stop ≠ c.ptr
  front : pc.frees = true → ∀ b ∈ pc.held, ∀ c ∈ freeBlocks L, c.stop ≠ b.ptr

/-- Between pages without tags no free run touches. -/
theorem Inv.lonely (inv : Inv s L) {b : Block} (wf : b.Wf) (lonely : Lonely s.heap b) :
    (∀ c ∈ freeBlocks L, b.stop ≠ c.ptr) ∧ ∀ c ∈ freeBlocks L, c.stop ≠ b.ptr := by
  have haligned := wf.aligned
  have hpos := wf.pos
  simp only [PG_SIZE] at haligned hpos
  refine ⟨fun c hc hstop => ?_, fun c hc hstop => ?_⟩
  · obtain ⟨idx, hidx, a, ha, rfl⟩ := mem_freeBlocks.mp hc
    have hpage : b.ptr / PG_SIZE + b.num = a / PG_SIZE := by
      simp only [Block.stop, PG_SIZE] at hstop ⊢
      omega
    have hneg := lonely.2
    rw [hpage, (inv.rep.tagged.ends idx hidx a ha).1] at hneg
    exact absurd (tag_neg hidx) hneg.not_gt
  · obtain ⟨idx, hidx, a, ha, rfl⟩ := mem_freeBlocks.mp hc
    have hpage : b.ptr / PG_SIZE - 1 = a / PG_SIZE + idx := by
      simp only [Block.stop, PG_SIZE] at hstop ⊢
      omega
    have hneg := lonely.1
    rw [hpage, (inv.rep.tagged.ends idx hidx a ha).2] at hneg
    exact absurd (tag_neg hidx) hneg.not_gt

/-- What an action puts on a list touches no free run, if the thread's hands are apart. -/
theorem Inv.inserts_apart (inv : Inv s L) {b : Block} (spread : Spread L (s.pc ()))
    (hins : (s.pc ()).inserts = some b) :
    0 < b.num ∧ (∀ c ∈ freeBlocks L, b.stop ≠ c.ptr) ∧ ∀ c ∈ freeBlocks L, c.stop ≠ b.ptr := by
  cases hpc : s.pc () with
  | allocSplit size parentIdx parent =>
      rw [hpc] at hins
      obtain rfl := Option.some.inj hins
      have hheld : ⟨parent, parentIdx + 1⟩ ∈ (s.pc ()).held := by simp [hpc, Pc.held]
      have hok := inv.thread ()
      rw [hpc] at hok
      obtain ⟨hlt, -⟩ := hok
      have hstop : (⟨parent + PG_SIZE * (originSize size + 1), parentIdx - originSize size⟩ :
          Block).stop = (⟨parent, parentIdx + 1⟩ : Block).stop := by
        simp only [Block.stop, PG_SIZE]
        omega
      refine ⟨?_, fun c hc => ?_, fun c hc hfront => ?_⟩
      · simp only
        omega
      · rw [hstop]
        exact spread.behind _ hheld c hc
      · -- the page in front of the remainder belongs to the thread
        obtain ⟨idx, hidx, a, ha, rfl⟩ := mem_freeBlocks.mp hc
        have wf := inv.wf _ (mem_of_held hheld)
        have haligned := wf.aligned
        refine inv.held_not_free (p := a / PG_SIZE + idx) hheld ?_
          (mem_freePages.mpr ⟨idx, hidx, a, ha, Block.ends_mem (Or.inr rfl)⟩)
        simp only [Block.stop, Block.mem_pages, PG_SIZE] at haligned hfront ⊢
        omega
  | freeInsert finalPtr finalIdx =>
      rw [hpc] at hins
      obtain rfl := Option.some.inj hins
      have hheld : ⟨finalPtr, finalIdx + 1⟩ ∈ (s.pc ()).held := by simp [hpc, Pc.held]
      exact ⟨Nat.succ_pos _, spread.behind _ hheld, spread.front (by rw [hpc]; rfl) _ hheld⟩
  | _ =>
      rw [hpc] at hins
      cases hins

/-- An action keeps the free runs apart. -/
theorem Inv.spread_change (inv : Inv s L) {c : Pc} (spread : Spread L (s.pc ()))
    (change : Change (s.pc ()) c L L') (hands : ∀ b, (s.pc ()).inserts = some b → c.held = 0) :
    Spread L' c := by
  rcases change.free with hsub | ⟨b, hins, hpush⟩
  · rcases change.held with ⟨hheld, hfrees⟩ | ⟨hheld, hfrees⟩
    · exact ⟨fun x hx y hy => spread.free x (hsub hx) y (hsub hy),
        fun x hx y hy => spread.behind x (hheld hx) y (hsub hy),
        fun hf x hx y hy => spread.front (hfrees hf) x (hheld hx) y (hsub hy)⟩
    · exact ⟨fun x hx y hy => spread.free x (hsub hx) y (hsub hy),
        fun x hx y hy => spread.free x (hheld hx) y (hsub hy),
        fun hf => absurd hf (by simp [hfrees])⟩
  · have hempty := hands b hins
    obtain ⟨hnum, hbehind, hfront⟩ := inv.inserts_apart spread hins
    refine ⟨fun x hx y hy => ?_, by simp [hempty], fun _ => by simp [hempty]⟩
    rw [hpush] at hx hy
    rcases Multiset.mem_cons.mp hx with hx | hx <;> rcases Multiset.mem_cons.mp hy with hy | hy
    · rw [hx, hy]
      simp only [Block.stop, PG_SIZE]
      omega
    · exact hx ▸ hbehind y hy
    · exact hy ▸ hfront x hx
    · exact spread.free x hx y hy

/-- An action that fills a list leaves nothing in the thread's hands. -/
theorem inserts_returns {h h' : Heap} {mapped : Nat} {pc c : Pc} {e : Event}
    (next : act h mapped pc = some (h', c, e)) {b : Block} (hins : pc.inserts = some b) :
    c.held = 0 := by
  cases pc with
  | allocSplit size parentIdx parent =>
      simp only [act, Option.bind_eq_bind] at next
      obtain ⟨h₁, -, hret⟩ := Option.bind_eq_some_iff.mp next
      cases hret
      rfl
  | freeInsert finalPtr finalIdx =>
      simp only [act, Option.bind_eq_bind] at next
      split at next
      · obtain ⟨h₁, -, hret⟩ := Option.bind_eq_some_iff.mp next
        cases hret
        rfl
      · cases next
        rfl
  | _ => cases hins

theorem spread_step (inv : Inv s L) (spread : Spread L (s.pc ())) {a : Unit × Event}
    {s' : State Unit} (hstep : LonelyStep s a s') :
    ∃ L', Inv s' L' ∧ Spread L' (s'.pc ()) := by
  obtain ⟨hstep, lonely⟩ := hstep
  cases hstep with
  | alloc size idle pos le =>
      refine ⟨L, inv.callAlloc idle pos le, ?_⟩
      have hheld : (allocEntry size).held = 0 := by
        rw [allocEntry, if_pos (Inv.originSize_lt le)]
        rfl
      simp only [Function.update_self]
      exact ⟨spread.free, by simp [hheld], fun _ => by simp [hheld]⟩
  | free ptr size idle live clear =>
      refine ⟨L, inv.callFree idle live, ?_⟩
      obtain ⟨hbehind, hfront⟩ := inv.lonely (inv.wf _ (Inv.mem_of_live live)) (lonely ptr size rfl)
      simp only [Function.update_self]
      refine ⟨spread.free, fun b hb => ?_, fun _ b hb => ?_⟩
      · obtain rfl := Multiset.mem_singleton.mp hb
        exact hbehind
      · obtain rfl := Multiset.mem_singleton.mp hb
        exact hfront
  | @act t h c e mapped fresh next =>
      obtain ⟨h', c', e', L', hact, hinv, change⟩ := inv.advances (running_of_act next) fresh
      rw [hact] at next
      cases next
      refine ⟨L', hinv, ?_⟩
      obtain ⟨⟩ := t
      simp only [State.record_pc, Function.update_self]
      exact inv.spread_change spread change fun _ hins => inserts_returns hact hins
  | store mem same => exact ⟨L, inv.store same, spread⟩
  | setEntry tree p v mine nonneg entry => exact ⟨L, inv.setEntry mine nonneg entry, spread⟩

/-- A single thread that frees runs only between pages without tags never has
two adjacent free runs. -/
theorem no_adjacent_free {mem : Mem} {tr : List (Unit × Event)}
    (run : Run LonelyStep (State.new mem) tr s) :
    ∃ L, Represents s.heap L ∧ NoAdjacent L := by
  have hinv : ∃ L, Inv s L ∧ Spread L (s.pc ()) := by
    refine run.invariant (I := fun s => ∃ L, Inv s L ∧ Spread L (s.pc ()))
      ⟨_, inv_new mem, ?_⟩ fun u a v ⟨L, inv, spread⟩ hstep => spread_step inv spread hstep
    refine ⟨fun b hb => ?_, fun b hb => ?_, fun hf => ?_⟩
    · simp [freeBlocks_empty] at hb
    · simp [State.new, Pc.held] at hb
    · simp [State.new, Pc.frees] at hf
  obtain ⟨L, inv, spread⟩ := hinv
  exact ⟨L, inv.rep, spread.free⟩

/-- A page is allocated, freed and allocated again. -/
def lonelyRun : List (Unit × Move) :=
  ((), .alloc 4096) :: List.replicate 129 ((), .act 0x10000000) ++
    ((), .free 0x10ffff000 4096) :: List.replicate 3 ((), .act 0) ++
    ((), .alloc 4096) :: [((), .act 0)]

instance (h : Heap) (b : Block) : Decidable (Lonely h b) := inferInstanceAs (Decidable (_ ∧ _))

/-- A move of the single thread, if it frees no run next to a tag. -/
def lonelyMove (s : State Unit) (m : Unit × Move) : Option ((Unit × Event) × State Unit) :=
  match m.2 with
  | .free ptr size => if Lonely s.heap (blockOf ptr size) then s.move m.1 m.2 else none
  | _ => s.move m.1 m.2

theorem lonelyMove_step {s : State Unit} {m : Unit × Move} {x} (h : lonelyMove s m = some x) :
    LonelyStep s x.1 x.2 := by
  obtain ⟨t, m⟩ := m
  cases m with
  | free ptr size =>
      obtain ⟨lonely, h⟩ := Option.ite_none_right_eq_some.mp h
      refine ⟨State.move_step h, fun ptr' size' hcall => ?_⟩
      obtain ⟨-, h⟩ := Option.ite_none_right_eq_some.mp h
      cases h
      cases hcall
      exact lonely
  | alloc size =>
      have h : s.move t (.alloc size) = some x := h
      refine ⟨State.move_step h, fun ptr size hcall => ?_⟩
      obtain ⟨-, h⟩ := Option.ite_none_right_eq_some.mp h
      cases h
      cases hcall
  | act mapped =>
      have h : s.move t (.act mapped) = some x := h
      refine ⟨State.move_step h, fun ptr size hcall => ?_⟩
      obtain ⟨-, h⟩ := Option.ite_none_right_eq_some.mp h
      split at h
      · next h' c e next =>
          cases h
          cases hcall
          exact absurd next act_ne_callFree
      · cases h

theorem no_adjacent_free_lonelyRun :
    ∃ L, Represents (Path.last (State.new fun _ => 0)
      (Transition.play lonelyMove (State.new fun _ => 0) lonelyRun)).heap L ∧ NoAdjacent L :=
  no_adjacent_free (Transition.play_path (fun h => lonelyMove_step h) _ lonelyRun).run

/-- No state that a single thread can reach has adjacent free runs. -/
def Coalesces : Prop :=
  ∀ (mem : Mem) (tr : List (Unit × Event)) (s : State Unit), Run Step (State.new mem) tr s →
    ∀ L, Represents s.heap L → NoAdjacent L

/-- Two pages are allocated, the second one below the first, and both are freed. -/
def neighbours : List (Unit × Move) :=
  ((), .alloc 4096) :: List.replicate 129 ((), .act 0x10000000) ++
    ((), .alloc 4096) :: List.replicate 129 ((), .act 0x10000000) ++
    ((), .free 0x10ffff000 4096) :: List.replicate 3 ((), .act 0) ++
    ((), .free 0x10fffe000 4096) :: List.replicate 4 ((), .act 0)

/-- The two pages end up as two adjacent free runs of one page each. -/
theorem not_coalesces : ¬Coalesces := by
  intro h
  let s := Path.last (State.new fun _ => 0) (play (State.new fun _ => 0) neighbours)
  have run : Run Step (State.new fun _ => 0) _ s := (play_path _ neighbours).run
  obtain ⟨L, inv⟩ := inv_run run
  have hhead : s.heap.lists 0 = some 0x10fffe000 := by decide +kernel
  have hnext : readNext s.heap.mem 0x10fffe000 = some 0x10ffff000 := by decide +kernel
  obtain ⟨hlist, hlinked⟩ := inv.rep.threaded 0 (by decide)
  have hlow : 0x10fffe000 ∈ L 0 := List.mem_of_mem_head? (hlist ▸ hhead)
  have hhigh := hlinked.mem_of_next hlow hnext
  exact h _ _ s run L inv.rep _ (mem_freeBlocks.mpr ⟨0, by decide, _, hlow, rfl⟩)
    _ (mem_freeBlocks.mpr ⟨0, by decide, _, hhigh, rfl⟩) rfl

end UniAlloc.FreeList
