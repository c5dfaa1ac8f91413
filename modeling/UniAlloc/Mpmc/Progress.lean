import UniAlloc.Mpmc.Safety
import UniAlloc.Mpmc.Sequential

/-!
# What the answers "full" and "empty" mean under concurrency

A caller compares the position it holds, which may be stale, with the sequence
of that position's cell. As long as the sequence is less than 128 ahead of the
position, the byte difference has the true sign: an `Err` is returned at an
instant at which the position is current and its cell is still occupied from one
lap below, and `None` at an instant at which the cell of the current dequeue
position is unpublished. A failed exchange does not reload the position, so a
call with a stale position returns alone if the byte difference is not zero.
-/

namespace UniAlloc.Mpmc

open MpMcQueue Transition

variable {T : Type} {k t pos : Nat} {tr : List (Nat × Event T)} {s s' : State T} {g : Ghost}

/-- Cell `i` has been claimed by an enqueuer and not yet been released by a dequeuer. -/
def Occupied (N : Nat) (q : MpMcQueue T) (i : Nat) : Prop :=
  ∃ p < q.enqueuePos, p % N = i ∧ ((q.buffer i).sequence = p ∨ (q.buffer i).sequence = p + 1)

instance (N : Nat) (q : MpMcQueue T) (i : Nat) : Decidable (Occupied N q i) :=
  inferInstanceAs (Decidable (∃ p, p < q.enqueuePos ∧ _))

/-- The cell of the current dequeue position has not been published. -/
def Unpublished (N : Nat) (q : MpMcQueue T) : Prop :=
  (q.buffer (q.dequeuePos % N)).sequence ≠ q.dequeuePos + 1

/-- The sequence load of a call reads a sequence less than 128 ahead of what the
held position expects. -/
def Pc.Near (N : Nat) (q : MpMcQueue T) : Pc T → Prop
  | .enqueueSeq _ pos => (q.buffer (pos % N)).sequence < pos + 128
  | .dequeueSeq pos => (q.buffer (pos % N)).sequence < pos + 1 + 128
  | _ => True

/-- The position a call holds in its loop is the current one, or the byte difference
to its cell is not zero. -/
def Pc.Fresh (N : Nat) (q : MpMcQueue T) : Pc T → Prop
  | .enqueueSeq _ pos | .enqueueCas _ pos => pos = q.enqueuePos ∨
      wrappingSubI8 (asI8 (q.buffer (cellIdx N pos)).sequence) (asI8 pos) ≠ 0
  | .dequeueSeq pos | .dequeueCas pos => pos = q.dequeuePos ∨
      wrappingSubI8 (asI8 (q.buffer (cellIdx N pos)).sequence) (asI8 (wrappingAdd pos 1)) ≠ 0
  | _ => True

theorem Inv.sequence_eq (inv : Inv k tr s g) (hk' : k ≤ 7)
    (hb : (enqueueClaims tr).length + 256 ≤ 2 ^ 64) {i : Nat} (hi : i < 2 ^ k) :
    (s.queue.buffer i).sequence = g.val i := by
  have c := inv.cell i hi
  have hN := two_pow_le_128 hk'
  have hhi := c.lap_hi
  have hle := inv.le
  have hpub : (g.pub i).toNat ≤ 1 := Bool.toNat_le _
  rw [c.sequence]
  exact Nat.mod_eq_of_lt (by rw [Ghost.val]; omega)

/-- A held enqueue position never lies more than one lap above its cell. -/
theorem Inv.lap_of_stale_enqueue (inv : Inv k tr s g) (hpos : pos ≤ (enqueueClaims tr).length) :
    pos ≤ g.lap (pos % 2 ^ k) + 2 ^ k ∧
      (g.lap (pos % 2 ^ k) < pos → g.lap (pos % 2 ^ k) + 2 ^ k = pos ∧
        pos = (enqueueClaims tr).length) := by
  have c := inv.cell _ (Nat.mod_lt pos (Nat.two_pow_pos k))
  have hlo := c.lap_lo
  refine ⟨by omega, fun hlt => ?_⟩
  have hmod : g.lap (pos % 2 ^ k) % 2 ^ k = pos % 2 ^ k := c.lap_mod
  rcases eq_or_add_eq hmod (by omega) (by omega) with h | h <;> omega

theorem Inv.lap_of_stale_dequeue (inv : Inv k tr s g) (hpos : pos ≤ (dequeueClaims tr).length) :
    pos ≤ g.lap (pos % 2 ^ k) + 2 ^ k ∧
      (g.lap (pos % 2 ^ k) < pos → g.lap (pos % 2 ^ k) + 2 ^ k = pos ∧
        pos = (dequeueClaims tr).length ∧ g.pub (pos % 2 ^ k) = true) := by
  have c := inv.cell _ (Nat.mod_lt pos (Nat.two_pow_pos k))
  have hlo := c.lap_lo
  have hle := inv.le
  refine ⟨by omega, fun hlt => ?_⟩
  have hmod : g.lap (pos % 2 ^ k) % 2 ^ k = pos % 2 ^ k := c.lap_mod
  have hlap : g.lap (pos % 2 ^ k) + 2 ^ k = pos := by
    rcases eq_or_add_eq hmod (by omega) (by omega) with h | h <;> omega
  refine ⟨hlap, by omega, ?_⟩
  by_contra hp
  have := c.unpub (by simpa using hp)
  omega

/-- Within the near range the byte difference of an enqueue is the true one. -/
theorem Inv.enqueue_dif_near (inv : Inv k tr s g) (hk' : k ≤ 7)
    (hb : (enqueueClaims tr).length + 256 ≤ 2 ^ 64) (hpos : pos ≤ (enqueueClaims tr).length)
    (near : (s.queue.buffer (pos % 2 ^ k)).sequence < pos + 128) :
    wrappingSubI8 (asI8 (s.queue.buffer (pos % 2 ^ k)).sequence) (asI8 pos) =
      ((s.queue.buffer (pos % 2 ^ k)).sequence : Int) - pos := by
  have hN := two_pow_le_128 hk'
  have hlap := (inv.lap_of_stale_enqueue hpos).1
  rw [inv.sequence_eq hk' hb (Nat.mod_lt pos (Nat.two_pow_pos k)), Ghost.val] at near ⊢
  rw [wrappingSubI8_asI8, bmod_byte (by omega) (by omega)]

/-- Within the near range the byte difference of a dequeue is the true one. -/
theorem Inv.dequeue_dif_near (inv : Inv k tr s g) (hk' : k ≤ 7)
    (hb : (enqueueClaims tr).length + 256 ≤ 2 ^ 64) (hpos : pos ≤ (dequeueClaims tr).length)
    (near : (s.queue.buffer (pos % 2 ^ k)).sequence < pos + 1 + 128) :
    wrappingSubI8 (asI8 (s.queue.buffer (pos % 2 ^ k)).sequence) (asI8 (wrappingAdd pos 1)) =
      ((s.queue.buffer (pos % 2 ^ k)).sequence : Int) - (pos + 1 : Nat) := by
  have hN := two_pow_le_128 hk'
  obtain ⟨hlap, hlow⟩ := inv.lap_of_stale_dequeue hpos
  have hlo : pos + 1 ≤ g.val (pos % 2 ^ k) + 128 := by
    rw [Ghost.val]
    by_cases hlt : g.lap (pos % 2 ^ k) < pos
    · obtain ⟨h, -, hpub⟩ := hlow hlt
      simp only [hpub, Bool.toNat_true]
      omega
    · omega
  have hadd : wrappingAdd pos 1 = pos + 1 := by
    have := inv.le
    exact Nat.mod_eq_of_lt (by omega)
  rw [inv.sequence_eq hk' hb (Nat.mod_lt pos (Nat.two_pow_pos k))] at near ⊢
  rw [hadd, wrappingSubI8_asI8, bmod_byte (by omega) (by omega)]

/-- A cell whose sequence is below the held enqueue position is occupied from one
lap below, and the position is the current one. -/
theorem Inv.occupied (inv : Inv k tr s g) (hk' : k ≤ 7)
    (hb : (enqueueClaims tr).length + 256 ≤ 2 ^ 64) (hpos : pos ≤ (enqueueClaims tr).length)
    (hlt : (s.queue.buffer (pos % 2 ^ k)).sequence < pos) :
    pos = s.queue.enqueuePos ∧ Occupied (2 ^ k) s.queue (pos % 2 ^ k) := by
  have hseq := inv.sequence_eq hk' hb (Nat.mod_lt pos (Nat.two_pow_pos k))
  have hval : g.lap (pos % 2 ^ k) < pos := by
    rw [hseq, Ghost.val] at hlt
    omega
  obtain ⟨hlap, hcur⟩ := (inv.lap_of_stale_enqueue hpos).2 hval
  refine ⟨hcur.trans inv.enqueuePos.symm, g.lap (pos % 2 ^ k), ?_, ?_, ?_⟩
  · rw [inv.enqueuePos]
    omega
  · exact (inv.cell _ (Nat.mod_lt pos (Nat.two_pow_pos k))).lap_mod
  · rw [hseq, Ghost.val]
    cases g.pub (pos % 2 ^ k) <;> simp

/-- A cell whose sequence is not above the held dequeue position is unpublished
for it, and the position is the current one. -/
theorem Inv.unpublished (inv : Inv k tr s g) (hk' : k ≤ 7)
    (hb : (enqueueClaims tr).length + 256 ≤ 2 ^ 64) (hpos : pos ≤ (dequeueClaims tr).length)
    (hlt : (s.queue.buffer (pos % 2 ^ k)).sequence < pos + 1) :
    pos = s.queue.dequeuePos ∧ Unpublished (2 ^ k) s.queue := by
  have hi := Nat.mod_lt pos (Nat.two_pow_pos k)
  have hseq := inv.sequence_eq hk' hb hi
  have hcur : pos = (dequeueClaims tr).length := by
    by_cases hval : g.lap (pos % 2 ^ k) < pos
    · exact ((inv.lap_of_stale_dequeue hpos).2 hval).2.1
    · rw [hseq, Ghost.val] at hlt
      have hpub : g.pub (pos % 2 ^ k) = false := by
        cases hp : g.pub (pos % 2 ^ k)
        · rfl
        · simp only [hp, Bool.toNat_true] at hlt
          omega
      have := (inv.cell _ hi).unpub hpub
      omega
  have hD : pos = s.queue.dequeuePos := hcur.trans inv.dequeuePos.symm
  refine ⟨hD, ?_⟩
  rw [Unpublished, ← hD]
  omega

/-- Only a sequence load can answer "full", from a negative byte difference. -/
theorem act_enqueueErr {N : Nat} {weak : Bool} {q : MpMcQueue T} {pc : Pc T} {item : T}
    (h : (act N weak q pc).2.2 = .enqueueErr item) :
    ∃ pos, pc = .enqueueSeq item pos ∧
      wrappingSubI8 (asI8 (q.buffer (cellIdx N pos)).sequence) (asI8 pos) < 0 := by
  cases pc with
  | enqueueSeq item' pos =>
      simp only [act] at h
      split_ifs at h with hz hneg
      cases h
      exact ⟨pos, rfl, hneg⟩
  | enqueueCas item' pos | dequeueSeq pos | dequeueCas pos =>
      simp only [act] at h
      split_ifs at h
  | _ => cases h

/-- Only a sequence load can answer "empty", from a negative byte difference. -/
theorem act_dequeueNone {N : Nat} {weak : Bool} {q : MpMcQueue T} {pc : Pc T}
    (h : (act N weak q pc).2.2 = .dequeueNone) :
    ∃ pos, pc = .dequeueSeq pos ∧
      wrappingSubI8 (asI8 (q.buffer (cellIdx N pos)).sequence) (asI8 (wrappingAdd pos 1)) < 0 := by
  cases pc with
  | dequeueSeq pos =>
      simp only [act] at h
      split_ifs at h with hz hneg
      exact ⟨pos, rfl, hneg⟩
  | enqueueCas item pos | enqueueSeq item pos | dequeueCas pos =>
      simp only [act] at h
      split_ifs at h
  | _ => cases h

theorem act_of_step {N : Nat} {e : Event T} (h : Step N s (t, e) s') (answer : e.isCall = false) :
    ∃ weak, (act N weak s.queue (s.pc t)).2.2 = e := by
  generalize ha : (t, e) = a at h
  cases h with
  | enqueue item idle => cases ha; cases answer
  | dequeue idle => cases ha; cases answer
  | act weak running => cases ha; exact ⟨weak, rfl⟩

/-- A near `Err` is given at an instant at which the held position is current and
its cell is occupied. -/
theorem Inv.err_justified (inv : Inv k tr s g) (hk' : k ≤ 7)
    (hb : (enqueueClaims tr).length + 256 ≤ 2 ^ 64) {item : T}
    (h : Step (2 ^ k) s (t, .enqueueErr item) s') (near : (s.pc t).Near (2 ^ k) s.queue) :
    s.pc t = .enqueueSeq item s.queue.enqueuePos ∧
      Occupied (2 ^ k) s.queue (s.queue.enqueuePos % 2 ^ k) := by
  obtain ⟨weak, hact⟩ := act_of_step h rfl
  obtain ⟨pos, hpc, hneg⟩ := act_enqueueErr hact
  have hpos := inv.thread t
  rw [hpc] at hpos near
  rw [cellIdx_two_pow, inv.enqueue_dif_near hk' hb hpos near] at hneg
  obtain ⟨hcur, hocc⟩ := inv.occupied hk' hb hpos (by omega)
  rw [← hcur]
  exact ⟨hpc, hocc⟩

/-- A near `None` is given at an instant at which the held position is current and
its cell is unpublished. -/
theorem Inv.none_justified (inv : Inv k tr s g) (hk' : k ≤ 7)
    (hb : (enqueueClaims tr).length + 256 ≤ 2 ^ 64)
    (h : Step (2 ^ k) s (t, .dequeueNone) s') (near : (s.pc t).Near (2 ^ k) s.queue) :
    s.pc t = .dequeueSeq s.queue.dequeuePos ∧ Unpublished (2 ^ k) s.queue := by
  obtain ⟨weak, hact⟩ := act_of_step h rfl
  obtain ⟨pos, hpc, hneg⟩ := act_dequeueNone hact
  have hpos := inv.thread t
  rw [hpc] at hpos near
  rw [cellIdx_two_pow, inv.dequeue_dif_near hk' hb hpos near] at hneg
  obtain ⟨hcur, hun⟩ := inv.unpublished hk' hb hpos (by omega)
  rw [← hcur]
  exact ⟨hpc, hun⟩

/-- A call running alone from here returns, whatever number of its exchanges
fails spuriously. -/
def Settles (N : Nat) (q : MpMcQueue T) (pc : Pc T) : Prop :=
  ∀ w, ∃ q' e, Returns N w q pc q' e

/-- An action that leaves the queue alone and consumes no exchange. -/
theorem Settles.step {N : Nat} {q : MpMcQueue T} {pc c : Pc T} {v : Event T}
    (h : ∀ weak, act N weak q pc = (q, c, v)) (running : c ≠ .idle)
    (same : ∀ w, pc.spuriousLeft w = w) (rest : Settles N q c) : Settles N q pc := by
  intro w
  obtain ⟨q', e, hret⟩ := rest w
  exact ⟨q', e, .step (h _) running (by rwa [same])⟩

theorem settles_enqueueWrite (N : Nat) (q : MpMcQueue T) (item : T) (pos w : Nat) :
    ∃ q' e, Returns N w q (.enqueueWrite item pos) q' e :=
  ⟨_, _, .step rfl (by simp) (.last rfl)⟩

theorem settles_dequeueRead (N : Nat) (q : MpMcQueue T) (pos w : Nat) :
    ∃ q' e, Returns N w q (.dequeueRead pos) q' e :=
  ⟨_, _, .step rfl (by simp) (.last rfl)⟩

/-- With the current position and no positive difference, an enqueue is decided
by the sequence it reads: it claims the cell or answers "full". -/
theorem settles_enqueueSeq {N : Nat} {q : MpMcQueue T} (item : T)
    (hdif : wrappingSubI8 (asI8 (q.buffer (cellIdx N q.enqueuePos)).sequence)
      (asI8 q.enqueuePos) ≤ 0) : Settles N q (.enqueueSeq item q.enqueuePos) := by
  intro w
  by_cases hz : wrappingSubI8 (asI8 (q.buffer (cellIdx N q.enqueuePos)).sequence)
      (asI8 q.enqueuePos) = 0
  · have load : ∀ weak, act N weak q (.enqueueSeq item q.enqueuePos) =
        (q, .enqueueCas item q.enqueuePos, .tau) := fun _ => by simp only [act, if_pos hz]
    induction w with
    | zero =>
        obtain ⟨q', e, hret⟩ := settles_enqueueWrite N
          { q with enqueuePos := wrappingAdd q.enqueuePos 1 } item q.enqueuePos 0
        refine ⟨q', e, .step (load _) (by simp) (.step (v := .enqueueClaim q.enqueuePos item)
          ?_ (by simp) hret)⟩
        simp [act, Pc.spuriousLeft]
    | succ w ih =>
        obtain ⟨q', e, hret⟩ := ih
        refine ⟨q', e, .step (load _) (by simp) (.step (r := q) (v := .tau)
          (c := .enqueueSeq item q.enqueuePos) ?_ (by simp) ?_)⟩
        · simp [act, Pc.spuriousLeft]
        · simpa [Pc.spuriousLeft] using hret
  · refine ⟨q, .enqueueErr item, .last ?_⟩
    simp only [act, if_neg hz, if_pos (lt_of_le_of_ne hdif hz)]

theorem settles_dequeueSeq {N : Nat} {q : MpMcQueue T}
    (hdif : wrappingSubI8 (asI8 (q.buffer (cellIdx N q.dequeuePos)).sequence)
      (asI8 (wrappingAdd q.dequeuePos 1)) ≤ 0) : Settles N q (.dequeueSeq q.dequeuePos) := by
  intro w
  by_cases hz : wrappingSubI8 (asI8 (q.buffer (cellIdx N q.dequeuePos)).sequence)
      (asI8 (wrappingAdd q.dequeuePos 1)) = 0
  · have load : ∀ weak, act N weak q (.dequeueSeq q.dequeuePos) =
        (q, .dequeueCas q.dequeuePos, .tau) := fun _ => by simp only [act, if_pos hz]
    induction w with
    | zero =>
        obtain ⟨q', e, hret⟩ := settles_dequeueRead N
          { q with dequeuePos := wrappingAdd q.dequeuePos 1 } q.dequeuePos 0
        refine ⟨q', e, .step (load _) (by simp) (.step (v := .dequeueClaim q.dequeuePos)
          ?_ (by simp) hret)⟩
        simp [act, Pc.spuriousLeft]
    | succ w ih =>
        obtain ⟨q', e, hret⟩ := ih
        refine ⟨q', e, .step (load _) (by simp) (.step (r := q) (v := .tau)
          (c := .dequeueSeq q.dequeuePos) ?_ (by simp) ?_)⟩
        · simp [act, Pc.spuriousLeft]
        · simpa [Pc.spuriousLeft] using hret
  · refine ⟨q, .dequeueNone, .last ?_⟩
    simp only [act, if_neg hz, if_pos (lt_of_le_of_ne hdif hz)]

/-- At the current enqueue position the cell is never ahead. -/
theorem Inv.current_enqueue (inv : Inv k tr s g) (hk' : k ≤ 7)
    (hb : (enqueueClaims tr).length + 256 ≤ 2 ^ 64) :
    (s.queue.buffer (s.queue.enqueuePos % 2 ^ k)).sequence ≤ s.queue.enqueuePos := by
  have hi := Nat.mod_lt s.queue.enqueuePos (Nat.two_pow_pos k)
  have c := inv.cell _ hi
  have hE := inv.enqueuePos
  have hle := inv.le
  have hhi := c.lap_hi
  rw [inv.sequence_eq hk' hb hi, Ghost.val]
  cases hp : g.pub (s.queue.enqueuePos % 2 ^ k) with
  | true =>
      have := (c.pub hp).1
      simp only [Bool.toNat_true]
      omega
  | false =>
      simp only [Bool.toNat_false, Nat.add_zero]
      by_contra hlt
      rcases eq_or_add_eq (N := 2 ^ k) c.lap_mod (by omega) (by omega) with h | h <;> omega

/-- At the current dequeue position the cell is at most published. -/
theorem Inv.current_dequeue (inv : Inv k tr s g) (hk' : k ≤ 7)
    (hb : (enqueueClaims tr).length + 256 ≤ 2 ^ 64) :
    (s.queue.buffer (s.queue.dequeuePos % 2 ^ k)).sequence ≤ s.queue.dequeuePos + 1 := by
  have hi := Nat.mod_lt s.queue.dequeuePos (Nat.two_pow_pos k)
  have c := inv.cell _ hi
  have hD := inv.dequeuePos
  have hhi := c.lap_hi
  have hlap : g.lap (s.queue.dequeuePos % 2 ^ k) ≤ s.queue.dequeuePos := by
    by_contra hlt
    rcases eq_or_add_eq (N := 2 ^ k) c.lap_mod (by omega) (by omega) with h | h <;> omega
  rw [inv.sequence_eq hk' hb hi, Ghost.val]
  have := Bool.toNat_le (g.pub (s.queue.dequeuePos % 2 ^ k))
  omega

theorem Inv.settles_enqueueLoad (inv : Inv k tr s g) (hk' : k ≤ 7)
    (hb : (enqueueClaims tr).length + 256 ≤ 2 ^ 64) (item : T) :
    Settles (2 ^ k) s.queue (.enqueueSeq item s.queue.enqueuePos) ∧
      Settles (2 ^ k) s.queue (.enqueueLoad item) := by
  have hcur := inv.current_enqueue hk' hb
  have hdif := inv.enqueue_dif_near hk' hb inv.enqueuePos.le (by omega)
  have hseq : Settles (2 ^ k) s.queue (.enqueueSeq item s.queue.enqueuePos) :=
    settles_enqueueSeq item (by rw [cellIdx_two_pow, hdif]; omega)
  exact ⟨hseq, .step (fun _ => rfl) (by simp) (fun _ => rfl) hseq⟩

theorem Inv.settles_dequeueLoad (inv : Inv k tr s g) (hk' : k ≤ 7)
    (hb : (enqueueClaims tr).length + 256 ≤ 2 ^ 64) :
    Settles (2 ^ k) s.queue (.dequeueSeq s.queue.dequeuePos) ∧
      Settles (2 ^ k) s.queue .dequeueLoad := by
  have hcur := inv.current_dequeue hk' hb
  have hdif := inv.dequeue_dif_near hk' hb inv.dequeuePos.le (by omega)
  have hseq : Settles (2 ^ k) s.queue (.dequeueSeq s.queue.dequeuePos) :=
    settles_dequeueSeq (by rw [cellIdx_two_pow, hdif]; omega)
  exact ⟨hseq, .step (fun _ => rfl) (by simp) (fun _ => rfl) hseq⟩

/-- A fresh position settles: it is current, or answered at once, or loaded again. -/
theorem Inv.settles_fresh_enqueue (inv : Inv k tr s g) (hk' : k ≤ 7)
    (hb : (enqueueClaims tr).length + 256 ≤ 2 ^ 64) (item : T)
    (fresh : (Pc.enqueueSeq item pos).Fresh (2 ^ k) s.queue) :
    Settles (2 ^ k) s.queue (.enqueueSeq item pos) := by
  rcases fresh with rfl | hne
  · exact (inv.settles_enqueueLoad hk' hb item).1
  rcases lt_or_gt_of_ne hne with hneg | hahead
  · intro w
    refine ⟨s.queue, .enqueueErr item, .last ?_⟩
    simp only [act, if_neg hne, if_pos hneg]
  · refine .step (v := .tau) (fun weak => ?_) (by simp) (fun _ => rfl)
      (inv.settles_enqueueLoad hk' hb item).2
    simp only [act, if_neg hne, if_neg (not_lt.mpr hahead.le)]

theorem Inv.settles_fresh_dequeue (inv : Inv k tr s g) (hk' : k ≤ 7)
    (hb : (enqueueClaims tr).length + 256 ≤ 2 ^ 64)
    (fresh : (Pc.dequeueSeq (T := T) pos).Fresh (2 ^ k) s.queue) :
    Settles (2 ^ k) s.queue (.dequeueSeq pos) := by
  rcases fresh with rfl | hne
  · exact (inv.settles_dequeueLoad hk' hb).1
  rcases lt_or_gt_of_ne hne with hneg | hahead
  · intro w
    refine ⟨s.queue, .dequeueNone, .last ?_⟩
    simp only [act, if_neg hne, if_pos hneg]
  · refine .step (v := .tau) (fun weak => ?_) (by simp) (fun _ => rfl)
      (inv.settles_dequeueLoad hk' hb).2
    simp only [act, if_neg hne, if_neg (not_lt.mpr hahead.le)]

/-- From an exchange a call claims its position or goes back to the sequence load. -/
theorem settles_enqueueCas {N : Nat} {q : MpMcQueue T} {item : T}
    (back : Settles N q (.enqueueSeq item pos)) : Settles N q (.enqueueCas item pos) := by
  intro w
  by_cases hcas : q.enqueuePos = pos ∧ w = 0
  · obtain ⟨rfl, rfl⟩ := hcas
    obtain ⟨q', e, hret⟩ := settles_enqueueWrite N
      { q with enqueuePos := wrappingAdd q.enqueuePos 1 } item q.enqueuePos 0
    exact ⟨q', e, .step (v := .enqueueClaim q.enqueuePos item) (by simp [act]) (by simp) hret⟩
  · obtain ⟨q', e, hret⟩ := back (w - 1)
    refine ⟨q', e, .step (v := .tau) ?_ (by simp) hret⟩
    simp only [act]
    rw [if_neg (by simpa using hcas)]

theorem settles_dequeueCas {N : Nat} {q : MpMcQueue T}
    (back : Settles N q (.dequeueSeq pos)) : Settles N q (.dequeueCas pos) := by
  intro w
  by_cases hcas : q.dequeuePos = pos ∧ w = 0
  · obtain ⟨rfl, rfl⟩ := hcas
    obtain ⟨q', e, hret⟩ := settles_dequeueRead N
      { q with dequeuePos := wrappingAdd q.dequeuePos 1 } q.dequeuePos 0
    exact ⟨q', e, .step (v := .dequeueClaim q.dequeuePos) (by simp [act]) (by simp) hret⟩
  · obtain ⟨q', e, hret⟩ := back (w - 1)
    refine ⟨q', e, .step (v := .tau) ?_ (by simp) hret⟩
    simp only [act]
    rw [if_neg (by simpa using hcas)]

/-- Every program point with a fresh position, or without one, settles. -/
theorem Inv.settles (inv : Inv k tr s g) (hk' : k ≤ 7)
    (hb : (enqueueClaims tr).length + 256 ≤ 2 ^ 64) (fresh : (s.pc t).Fresh (2 ^ k) s.queue) :
    Settles (2 ^ k) s.queue (s.pc t) := by
  cases hpc : s.pc t with
  | idle => exact fun w => ⟨_, _, .last rfl⟩
  | dequeueLoad => exact (inv.settles_dequeueLoad hk' hb).2
  | dequeueSeq pos =>
      rw [hpc] at fresh
      exact inv.settles_fresh_dequeue hk' hb fresh
  | dequeueCas pos =>
      rw [hpc] at fresh
      exact settles_dequeueCas (inv.settles_fresh_dequeue hk' hb fresh)
  | dequeueRead pos => exact settles_dequeueRead _ _ pos
  | dequeueStore pos data => exact fun w => ⟨_, _, .last rfl⟩
  | enqueueLoad item => exact (inv.settles_enqueueLoad hk' hb item).2
  | enqueueSeq item pos =>
      rw [hpc] at fresh
      exact inv.settles_fresh_enqueue hk' hb item fresh
  | enqueueCas item pos =>
      rw [hpc] at fresh
      exact settles_enqueueCas (inv.settles_fresh_enqueue hk' hb item fresh)
  | enqueueWrite item pos => exact settles_enqueueWrite _ _ item pos
  | enqueueStore pos => exact fun w => ⟨_, _, .last rfl⟩

/-- With fewer than `2 ^ 64` calls the counters stay far from the end of the word:
an enqueue needs a dequeue one lap earlier. -/
theorem Inv.enqueue_far (inv : Inv k tr s g) (hk' : k ≤ 7)
    (run : Run (Step (2 ^ k)) State.new tr s) (hcalls : (calls tr).length < 2 ^ 64) :
    (enqueueClaims tr).length + 256 ≤ 2 ^ 64 := by
  have c := inv.cell 0 (Nat.two_pow_pos k)
  have hlo := c.lap_lo
  have hhi := c.lap_hi
  have hN := two_pow_le_128 hk'
  have hsum := length_claims_le run
  omega

/-- What the answers and the loops of the calls in progress are worth. -/
structure Justified (N : Nat) (s : State T) : Prop where
  /-- "Full" is answered with the current position, whose cell is occupied. -/
  err : ∀ t item s', Step N s (t, .enqueueErr item) s' → (s.pc t).Near N s.queue →
    s.pc t = .enqueueSeq item s.queue.enqueuePos ∧
      Occupied N s.queue (s.queue.enqueuePos % N)
  /-- "Empty" is answered with the current position, whose cell is unpublished. -/
  none : ∀ t s', Step N s (t, .dequeueNone) s' → (s.pc t).Near N s.queue →
    s.pc t = .dequeueSeq s.queue.dequeuePos ∧ Unpublished N s.queue
  /-- A call with a fresh position returns when it runs alone. -/
  settles : ∀ t, (s.pc t).Fresh N s.queue → Settles N s.queue (s.pc t)

/-- In every run the answers "full" and "empty" are justified at the instant they
are decided, as long as the cell read is less than 128 ahead of the caller. -/
theorem answers_justified (hk : 1 ≤ k) (hk' : k ≤ 7) (run : Run (Step (2 ^ k)) State.new tr s)
    (hcalls : (calls tr).length < 2 ^ 64) : Justified (2 ^ k) s := by
  obtain ⟨g, inv⟩ := inv_run hk hk' run (bounded_of_calls run hcalls)
  have hb := inv.enqueue_far hk' run hcalls
  exact ⟨fun _ _ _ h near => inv.err_justified hk' hb h near,
    fun _ _ h near => inv.none_justified hk' hb h near, fun _ fresh => inv.settles hk' hb fresh⟩

/-- The last state of a schedule of a fresh queue. -/
def lastOf (N : Nat) (moves : List (Nat × Move Nat)) : State Nat :=
  Path.last State.new (play N State.new moves)

/-- Two items are enqueued; thread 2 has claimed the first one without releasing
its cell, and thread 3 has dequeued the second one. -/
def slowDequeuer : List (Nat × Move Nat) :=
  (1, .enqueue 10) :: List.replicate 5 (1, .act false) ++
    (1, .enqueue 11) :: List.replicate 5 (1, .act false) ++
    (2, .dequeue) :: List.replicate 3 (2, .act false) ++
    (3, .dequeue) :: List.replicate 5 (3, .act false)

theorem answers_justified_slowDequeuer : Justified (2 ^ 1) (lastOf 2 slowDequeuer) :=
  answers_justified (k := 1) (by decide) (by decide) (play_path 2 _ slowDequeuer).run
    (by decide +kernel)

/-- The path is one call of thread `t`, from the call to its answer. -/
def IsCall (t : Nat) (call answer : Event T) (path : List ((Nat × Event T) × State T)) : Prop :=
  path.head?.map Prod.fst = some (t, call) ∧ path.getLast?.map Prod.fst = some (t, answer) ∧
    ∀ x ∈ path.tail, x.1.1 = t → x.1.2.isCall = false

/-- Every `Err` was given by a call that saw all cells occupied at some instant. -/
def ErrMeansFull (N : Nat) : Prop :=
  ∀ (tr : List (Nat × Event Nat)) (s : State Nat) path t item,
    Run (Step N) State.new tr s → Path (Step N) s path →
    IsCall t (.callEnqueue item) (.enqueueErr item) path →
    ∃ x ∈ path, ∀ i < N, Occupied N x.2.queue i

/-- Every call in progress returns when it runs alone. -/
def CallsReturn (N : Nat) : Prop :=
  ∀ (tr : List (Nat × Event Nat)) (s : State Nat) t,
    Run (Step N) State.new tr s → Settles N s.queue (s.pc t)

/-- Thread 1 enqueues and finds the cell of its position still taken. -/
def enqueueBehind : List (Nat × Move Nat) := (1, .enqueue 12) :: List.replicate 2 (1, .act false)

/-- Thread 1 is paused in an enqueue with position 0 while thread 2 enqueues and
dequeues one item. -/
def pausedEnqueue : List (Nat × Move Nat) :=
  (1, .enqueue 10) :: (1, .act false) :: (2, .enqueue 11) :: List.replicate 5 (2, .act false) ++
    (2, .dequeue) :: List.replicate 5 (2, .act false) ++ [(1, .act false)]

/-- Threads 1 and 2 hold position 0 and thread 2 has claimed it. -/
def claimedBehind : List (Nat × Move Nat) :=
  (1, .enqueue 10) :: (1, .act false) :: (2, .enqueue 11) :: List.replicate 3 (2, .act false)

/-- An enqueue whose position is claimed but not published by someone else goes
round its loop for ever. -/
theorem solo_claimed_eq_none {N : Nat} {q : MpMcQueue T} {item : T}
    (seq : (q.buffer (cellIdx N pos)).sequence = pos) (stale : q.enqueuePos ≠ pos)
    (w fuel : Nat) :
    solo N fuel w q (.enqueueSeq item pos) = none ∧
      solo N fuel w q (.enqueueCas item pos) = none := by
  induction fuel generalizing w with
  | zero => exact ⟨rfl, rfl⟩
  | succ fuel ih =>
      have hz : wrappingSubI8 (asI8 pos) (asI8 pos) = 0 := by simp [wrappingSubI8]
      refine ⟨?_, ?_⟩
      · simp only [solo, act, seq, if_pos hz]
        exact (ih _).2
      · simp only [solo, act, stale, false_and, if_false]
        exact (ih _).1

/-- With a slow dequeuer, or with a cell 128 ahead, `Err` is answered although a
cell is free all through the call; and a stale position that somebody else has
claimed never returns alone. -/
theorem answers_not_always_justified :
    ¬ErrMeansFull (2 ^ 1) ∧ ¬ErrMeansFull (2 ^ 7) ∧ ¬CallsReturn (2 ^ 1) := by
  refine ⟨fun h => ?_, fun h => ?_, fun h => ?_⟩
  · obtain ⟨x, hx, full⟩ := h _ (lastOf 2 slowDequeuer)
      (play 2 (lastOf 2 slowDequeuer) enqueueBehind) 1 12
      (play_path 2 _ slowDequeuer).run (play_path 2 _ _)
      ⟨by decide +kernel, by decide +kernel, by decide +kernel⟩
    have free : ∀ x ∈ play 2 (lastOf 2 slowDequeuer) enqueueBehind,
        ¬Occupied 2 x.2.queue 1 := by decide +kernel
    exact free x hx (full 1 (by decide))
  · obtain ⟨x, hx, full⟩ := h _ State.new (play 128 State.new pausedEnqueue) 1 10 .nil
      (play_path 128 _ _) ⟨by decide +kernel, by decide +kernel, by decide +kernel⟩
    have free : ∀ x ∈ play 128 State.new pausedEnqueue, ¬Occupied 128 x.2.queue 1 := by
      decide +kernel
    exact free x hx (full 1 (by decide))
  · obtain ⟨q', e, fuel, hret⟩ := h _ (lastOf 2 claimedBehind) 1 (play_path 2 _ _).run 0
    have hpc : (lastOf 2 claimedBehind).pc 1 = .enqueueSeq 10 0 := by decide +kernel
    rw [hpc, (solo_claimed_eq_none (by decide +kernel) (by decide +kernel) 0 fuel).1] at hret
    cases hret

end UniAlloc.Mpmc
