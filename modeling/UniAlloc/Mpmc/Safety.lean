import UniAlloc.Mpmc.Preservation

/-!
# Safety of the queue under any interleaving

Positions identify items: the `n`-th successful exchange on `enqueue_pos` claims
position `n` for its item, and the `n`-th one on `dequeue_pos` takes the item of
position `n`. `Safe` states what clients rely on, over the history of a run and
its last state, and `mpmc_safe` proves it for up to 128 cells as long as fewer
than `2 ^ 64` calls are made.
-/

namespace UniAlloc.Mpmc

open MpMcQueue Transition

variable {T : Type} {k : Nat} {tr : List (Nat × Event T)} {s : State T} {g : Ghost}

/-- The cell access in progress at a program point: the data of the cell of this
position is being written or read. -/
def Pc.Accesses (pc : Pc T) (p : Nat) : Prop :=
  (∃ item, pc = .enqueueWrite item p) ∨ pc = .dequeueRead p

/-- What a run with history `tr` guarantees in its last state `s`. -/
structure Safe (N : Nat) (tr : List (Nat × Event T)) (s : State T) : Prop where
  /-- Enqueue positions are claimed in order, each once. -/
  enqueue_order : (enqueueClaims tr).map Prod.fst = List.range (enqueueClaims tr).length
  /-- Items leave in the order of their positions. -/
  dequeue_order : dequeueClaims tr = List.range (dequeueClaims tr).length
  /-- An enqueue that returned `Ok` had claimed a position for its item. -/
  ok_claimed : ∀ t pos, (t, Event.enqueueOk pos) ∈ tr → ∃ item, (pos, item) ∈ enqueueClaims tr
  /-- A dequeue returns the item enqueued at the position it claimed. -/
  returned_item : ∀ pos data, (pos, data) ∈ returned tr →
    ∃ item, data = some item ∧ (pos, item) ∈ enqueueClaims tr ∧ pos ∈ dequeueClaims tr
  /-- No item is returned twice. -/
  returned_once : ((returned tr).map Prod.fst).Nodup
  /-- A cell being written holds no unread item. -/
  write_after_read : ∀ t item pos, s.pc t = .enqueueWrite item pos →
    ∀ p, p % N = pos % N → Written tr p → Read tr p
  /-- Nobody else reads or writes a cell that is being written. -/
  write_exclusive : ∀ t item pos, s.pc t = .enqueueWrite item pos →
    ∀ u p, u ≠ t → (s.pc u).Accesses p → p % N ≠ pos % N

def Event.isClaim : Event T → Bool
  | .enqueueClaim _ _ => true
  | .dequeueClaim _ => true
  | _ => false

/-- The thread is inside a call that has not claimed a position yet. -/
def Pc.unclaimed : Pc T → Nat
  | .dequeueLoad => 1
  | .dequeueSeq _ => 1
  | .dequeueCas _ => 1
  | .enqueueLoad _ => 1
  | .enqueueSeq _ _ => 1
  | .enqueueCas _ _ => 1
  | _ => 0

/-- A claim uses up the call it belongs to. -/
theorem act_unclaimed (N : Nat) (weak : Bool) (q : MpMcQueue T) (pc : Pc T) :
    (act N weak q pc).2.2.isClaim.toNat + (act N weak q pc).2.1.unclaimed ≤ pc.unclaimed ∧
      (act N weak q pc).2.2.isCall = false := by
  cases pc <;> simp only [act] <;> (try split) <;> (try split) <;>
    simp [Pc.unclaimed, Event.isClaim, Event.isCall]

/-- The events of one kind that a thread has shown. -/
def countBy (tr : List (Nat × Event T)) (kind : Event T → Bool) (t : Nat) : Nat :=
  ((tr.filter fun e => kind e.2).map Prod.fst).count t

theorem countBy_snoc (tr : List (Nat × Event T)) (kind : Event T → Bool) (t u : Nat)
    (e : Event T) :
    countBy (tr ++ [(u, e)]) kind t =
      countBy tr kind t + if t = u then (kind e).toNat else 0 := by
  cases h : kind e
  · simp [countBy, List.filter_append, h]
  · by_cases hu : t = u
    · simp [countBy, List.filter_append, h, hu]
    · simp [countBy, List.filter_append, h, hu, Ne.symm hu]

/-- Each thread has made at least as many calls as claims. -/
theorem claims_le_calls (run : Run (Step (2 ^ k)) State.new tr s) (t : Nat) :
    countBy tr Event.isClaim t + (s.pc t).unclaimed ≤ countBy tr Event.isCall t := by
  refine run.history_invariant
    (I := fun tr s => ∀ t, countBy tr Event.isClaim t + (s.pc t).unclaimed ≤
      countBy tr Event.isCall t) (fun t => Nat.le_refl _) ?_ t
  intro pre u a v ih hstep t
  have := ih t
  cases hstep with
  | @enqueue t' item idle =>
      by_cases ht : t = t'
      · subst ht
        simp [countBy_snoc, Event.isClaim, Event.isCall, Pc.unclaimed, idle] at this ⊢
        omega
      · simpa [countBy_snoc, ht] using this
  | @dequeue t' idle =>
      by_cases ht : t = t'
      · subst ht
        simp [countBy_snoc, Event.isClaim, Event.isCall, Pc.unclaimed, idle] at this ⊢
        omega
      · simpa [countBy_snoc, ht] using this
  | @act t' weak running =>
      by_cases ht : t = t'
      · subst ht
        obtain ⟨hclaim, hcall⟩ := act_unclaimed (2 ^ k) weak u.queue (u.pc t)
        simp only [countBy_snoc, if_pos, hcall, Function.update_self, Bool.toNat_false]
        omega
      · simpa [countBy_snoc, ht] using this

/-- Counting thread by thread bounds the whole history. -/
theorem length_filter_le (kind kind' : Event T → Bool)
    (h : ∀ t, countBy tr kind t ≤ countBy tr kind' t) :
    (tr.filter fun e => kind e.2).length ≤ (tr.filter fun e => kind' e.2).length := by
  have hsub : ((tr.filter fun e => kind e.2).map Prod.fst).Subperm
      ((tr.filter fun e => kind' e.2).map Prod.fst) :=
    List.subperm_ext_iff.mpr fun t _ => h t
  simpa using hsub.length_le

theorem length_claims_eq (tr : List (Nat × Event T)) :
    (enqueueClaims tr).length + (dequeueClaims tr).length =
      (tr.filter fun e => e.2.isClaim).length := by
  induction tr with
  | nil => rfl
  | cons a tr ih =>
      obtain ⟨t, e⟩ := a
      cases e <;>
        simp [enqueueClaims, dequeueClaims, Event.enqueueClaim?, Event.dequeueClaim?,
          Event.isClaim] at ih ⊢ <;> omega

/-- Fewer than `n` calls leave both counters below `n`. -/
theorem length_claims_le (run : Run (Step (2 ^ k)) State.new tr s) :
    (enqueueClaims tr).length + (dequeueClaims tr).length ≤ (calls tr).length := by
  rw [length_claims_eq]
  refine length_filter_le Event.isClaim Event.isCall fun t => ?_
  have := claims_le_calls run t
  omega

theorem bounded_of_calls (run : Run (Step (2 ^ k)) State.new tr s)
    (hcalls : (calls tr).length < 2 ^ 64) : Bounded tr := by
  have := length_claims_le run
  exact ⟨by omega, by omega⟩

/-- The item of a claimed position is in the claim list. -/
theorem Inv.mem_enqueueClaims (inv : Inv k tr s g) {p : Nat}
    (hp : p < (enqueueClaims tr).length) :
    ∃ item, itemAt tr p = some item ∧ (p, item) ∈ enqueueClaims tr := by
  have hfst : ((enqueueClaims tr)[p]).1 = p := by
    have h := congrArg (fun l => l[p]?) inv.positions
    simpa [hp] using h
  refine ⟨((enqueueClaims tr)[p]).2, by simp [itemAt, hp], ?_⟩
  have hmem := List.getElem_mem hp
  rwa [show (enqueueClaims tr)[p] = (p, ((enqueueClaims tr)[p]).2) from Prod.ext hfst rfl] at hmem

theorem Inv.safe (inv : Inv k tr s g) : Safe (2 ^ k) tr s where
  enqueue_order := inv.positions
  dequeue_order := inv.taken
  ok_claimed t pos h := by
    obtain ⟨item, -, hm⟩ := inv.mem_enqueueClaims (inv.ok_lt t pos h)
    exact ⟨item, hm⟩
  returned_item pos data h := by
    obtain ⟨hlt, hdata⟩ := inv.returned_lt _ h
    obtain ⟨item, hitem, hm⟩ := inv.mem_enqueueClaims (hlt.trans_le inv.le)
    refine ⟨item, hdata.trans hitem, hm, ?_⟩
    rw [inv.taken]
    exact List.mem_range.mpr hlt
  returned_once := inv.returned_nodup
  write_after_read t item pos hpc p hmod hw := by
    have hself := inv.thread t
    rw [hpc] at hself
    obtain ⟨hlt, hlap, hpub, -, hwr⟩ := hself
    have c := inv.cell _ (Nat.mod_lt pos (Nat.two_pow_pos k))
    have hlo := c.lap_lo
    have hpE := inv.written_lt p hw
    rw [hlap] at hlo
    rcases Nat.lt_trichotomy p pos with h | h | h
    · exact inv.past_read p (by rw [hmod, hlap]; exact h)
    · exact absurd (h ▸ hw) hwr
    · have := Nat.le_of_dvd (by omega) ((Nat.modEq_iff_dvd' h.le).mp hmod.symm)
      omega
  write_exclusive t item pos hpc u p hu hacc := by
    refine inv.other_of_claims (t := t) (by rw [hpc]; rfl) hu ?_
    rcases hacc with ⟨item', hpu⟩ | hpu <;> rw [hpu] <;> rfl

/-- Any interleaving of any number of threads on a queue of `2` to `128` cells
is safe, as long as fewer than `2 ^ 64` calls are made. -/
theorem mpmc_safe (hk : 1 ≤ k) (hk' : k ≤ 7) (run : Run (Step (2 ^ k)) State.new tr s)
    (hcalls : (calls tr).length < 2 ^ 64) : Safe (2 ^ k) tr s := by
  obtain ⟨g, inv⟩ := inv_run hk hk' run (bounded_of_calls run hcalls)
  exact inv.safe

/-- Thread 0 has enqueued an item that thread 1 takes while thread 0 claims the
second cell. -/
def handover : List (Nat × Move Nat) :=
  (0, .enqueue 7) :: List.replicate 5 (0, .act false) ++
    (1, .dequeue) :: List.replicate 4 (1, .act false) ++
    (0, .enqueue 8) :: List.replicate 3 (0, .act false) ++ [(1, .act false)]

theorem mpmc_safe_handover :
    Safe (2 ^ 1) ((play 2 State.new handover).map Prod.fst)
      (Path.last State.new (play 2 State.new handover)) :=
  mpmc_safe (k := 1) (by decide) (by decide) (play_path 2 _ handover).run (by decide +kernel)

end UniAlloc.Mpmc
