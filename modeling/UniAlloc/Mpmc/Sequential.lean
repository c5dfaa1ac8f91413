import UniAlloc.Mpmc.Basic

/-!
# The queue under a single thread

A call that runs alone is `act` iterated until the thread is idle again. The
calls of one thread are compared with an abstract FIFO of the same capacity.
Up to 128 cells every call returns what the FIFO returns; with 256 or 512 cells
this holds exactly for the call sequences that never enqueue into a full queue,
because there the byte difference of a full queue is positive.
-/

namespace UniAlloc.Mpmc

open MpMcQueue

variable {T : Type}

/-- A call of the public interface. -/
inductive Op (T : Type) where
  | enqueue (item : T)
  | dequeue
  deriving DecidableEq

/-- What the caller gets back. -/
inductive Ret (T : Type) where
  | enqueueOk
  | enqueueErr (item : T)
  | dequeueSome (item : T)
  | dequeueNone
  deriving DecidableEq

/-- The first program point of the called function. -/
def Op.entry : Op T → Pc T
  | .enqueue item => .enqueueLoad item
  | .dequeue => .dequeueLoad

/-- The returned value shown by the last step of a call. -/
def Event.ret? : Event T → Option (Ret T)
  | .enqueueOk _ => some .enqueueOk
  | .enqueueErr item => some (.enqueueErr item)
  | .dequeueSome _ data => data.map .dequeueSome
  | .dequeueNone => some .dequeueNone
  | _ => none

/-- Spurious failures left after an action: only an exchange consumes one. -/
def Pc.spuriousLeft : Pc T → Nat → Nat
  | .enqueueCas _ _, w => w - 1
  | .dequeueCas _, w => w - 1
  | _, w => w

/-- Run one call alone. The first `w` exchanges fail spuriously. `none` means
that the fuel did not suffice. -/
def solo (N : Nat) : Nat → Nat → MpMcQueue T → Pc T → Option (MpMcQueue T × Event T)
  | 0, _, _, _ => none
  | fuel + 1, w, q, pc =>
      match act N (decide (0 < w)) q pc with
      | (q', .idle, e) => some (q', e)
      | (q', pc', _) => solo N fuel (pc.spuriousLeft w) q' pc'

/-- Running alone from `pc` the call returns, leaving queue `q'`. -/
def Returns (N w : Nat) (q : MpMcQueue T) (pc : Pc T) (q' : MpMcQueue T) (e : Event T) : Prop :=
  ∃ fuel, solo N fuel w q pc = some (q', e)

/-- The abstract queue: a list of at most `N` items. -/
def fifo (N : Nat) : List T → Op T → Ret T × List T
  | items, .enqueue item =>
      if items.length < N then (.enqueueOk, items ++ [item]) else (.enqueueErr item, items)
  | [], .dequeue => (.dequeueNone, [])
  | item :: rest, .dequeue => (.dequeueSome item, rest)

/-- Every call of the sequence returns, with the value the FIFO returns. Each
call is paired with the number of its spurious exchange failures. -/
def Refines (N : Nat) : MpMcQueue T → List T → List (Op T × Nat) → Prop
  | _, _, [] => True
  | q, items, (op, w) :: rest =>
      ∃ q' e, Returns N w q op.entry q' e ∧ e.ret? = some (fifo N items op).1 ∧
        Refines N q' (fifo N items op).2 rest

/-- Some call of the sequence is an enqueue while `N` items are held. -/
def Overfills (N : Nat) : List T → List (Op T) → Prop
  | _, [] => False
  | items, op :: rest =>
      (items.length = N ∧ ∃ item, op = .enqueue item) ∨ Overfills N (fifo N items op).2 rest

theorem solo_mono {N fuel fuel' w : Nat} {q : MpMcQueue T} {pc : Pc T} {r}
    (h : solo N fuel w q pc = some r) (hle : fuel ≤ fuel') : solo N fuel' w q pc = some r := by
  induction fuel generalizing fuel' w q pc with
  | zero => simp [solo] at h
  | succ fuel ih =>
      obtain ⟨n, rfl⟩ : ∃ n, fuel' = n + 1 := ⟨fuel' - 1, by omega⟩
      simp only [solo] at h ⊢
      split at h <;> rename_i heq
      · exact h
      · exact ih h (by omega)

/-- A call running alone has one outcome. -/
theorem Returns.unique {N w : Nat} {q q₁ q₂ : MpMcQueue T} {pc : Pc T} {e₁ e₂ : Event T}
    (h₁ : Returns N w q pc q₁ e₁) (h₂ : Returns N w q pc q₂ e₂) : q₁ = q₂ ∧ e₁ = e₂ := by
  obtain ⟨n, hn⟩ := h₁
  obtain ⟨m, hm⟩ := h₂
  have h := (solo_mono hn (Nat.le_max_left n m)).symm.trans (solo_mono hm (Nat.le_max_right n m))
  simpa using h

/-- The last action of a call. -/
theorem Returns.last {N w : Nat} {q q' : MpMcQueue T} {pc : Pc T} {e : Event T}
    (h : act N (decide (0 < w)) q pc = (q', .idle, e)) : Returns N w q pc q' e :=
  ⟨1, by simp [solo, h]⟩

/-- One action followed by the rest of the call. -/
theorem Returns.step {N w : Nat} {q r q' : MpMcQueue T} {pc c : Pc T} {v e : Event T}
    (h : act N (decide (0 < w)) q pc = (r, c, v)) (running : c ≠ .idle)
    (rest : Returns N (pc.spuriousLeft w) r c q' e) : Returns N w q pc q' e := by
  obtain ⟨fuel, hf⟩ := rest
  refine ⟨fuel + 1, ?_⟩
  simp only [solo, h]
  exact hf

/-- The queue holds `items`, the oldest at position `D`. The cells of the window
`[D, D + N)` are filled up to the item count and released beyond it. -/
structure Holds (N : Nat) (q : MpMcQueue T) (items : List T) (D : Nat) : Prop where
  length_le : items.length ≤ N
  enqueuePos : q.enqueuePos = (D + items.length) % 2 ^ 64
  dequeuePos : q.dequeuePos = D % 2 ^ 64
  filled : ∀ k (h : k < items.length),
    q.buffer ((D + k) % N) = ⟨some items[k], (D + k + 1) % 2 ^ 64⟩
  vacant : ∀ k, items.length ≤ k → k < N →
    (q.buffer ((D + k) % N)).sequence = (D + k) % 2 ^ 64

theorem holds_new (N : Nat) (hN : N < 2 ^ 64) : Holds N (MpMcQueue.new (T := T)) [] 0 := by
  refine ⟨Nat.zero_le _, rfl, rfl, by simp, ?_⟩
  intro k _ hk
  simp only [MpMcQueue.new, Nat.zero_add, Nat.mod_eq_of_lt hk]
  exact (Nat.mod_eq_of_lt (hk.trans hN)).symm

theorem cellIdx_wrapped {j : Nat} (hj : j ≤ 64) (x : Nat) :
    cellIdx (2 ^ j) (x % 2 ^ 64) = x % 2 ^ j := by
  rw [cellIdx_two_pow, Nat.mod_mod_of_dvd _ (Nat.pow_dvd_pow 2 hj)]

theorem wrappingAdd_wrapped (x y : Nat) : wrappingAdd (x % 2 ^ 64) y = (x + y) % 2 ^ 64 := by
  simp [wrappingAdd]

/-- Distinct positions of one window use distinct cells. -/
theorem window_ne {N D k k' : Nat} (hk : k < N) (hk' : k' < N) (hne : k ≠ k') :
    (D + k) % N ≠ (D + k') % N := by
  intro h
  have h' : k % N = k' % N := Nat.ModEq.add_left_cancel' D h
  rw [Nat.mod_eq_of_lt hk, Nat.mod_eq_of_lt hk'] at h'
  exact hne h'

/-- The state an enqueue of `item` at position `p` leaves behind. -/
def enqueued (N : Nat) (q : MpMcQueue T) (item : T) (p : Nat) : MpMcQueue T :=
  (({ q with enqueuePos := (p + 1) % 2 ^ 64 }).setData (p % N) item).setSequence (p % N)
    ((p + 1) % 2 ^ 64)

/-- From the sequence load on, an enqueue whose cell is released claims it,
however often the exchange fails spuriously first. -/
theorem enqueueSeq_returns {j p : Nat} (hj : j ≤ 64) {q : MpMcQueue T} (item : T)
    (hpos : q.enqueuePos = p % 2 ^ 64)
    (hseq : (q.buffer (p % 2 ^ j)).sequence = p % 2 ^ 64) (w : Nat) :
    Returns (2 ^ j) w q (.enqueueSeq item (p % 2 ^ 64)) (enqueued (2 ^ j) q item p)
      (.enqueueOk (p % 2 ^ 64)) := by
  have load : ∀ w, act (2 ^ j) (decide (0 < w)) q (.enqueueSeq item (p % 2 ^ 64)) =
      (q, .enqueueCas item (p % 2 ^ 64), .tau) := by
    intro w
    simp only [act, cellIdx_wrapped hj, hseq, dif_wrapped, Int.sub_self]
    rfl
  induction w with
  | zero =>
      refine .step (load 0) (by simp) ?_
      refine .step (r := { q with enqueuePos := (p + 1) % 2 ^ 64 })
        (c := .enqueueWrite item (p % 2 ^ 64)) (v := .enqueueClaim (p % 2 ^ 64) item)
        (by simp [act, hpos, Pc.spuriousLeft, wrappingAdd]) (by simp) ?_
      refine .step (r := ({ q with enqueuePos := (p + 1) % 2 ^ 64 }).setData (p % 2 ^ j) item)
        (c := .enqueueStore (p % 2 ^ 64)) (v := .write (p % 2 ^ 64))
        (by simp only [act, cellIdx_wrapped hj]) (by simp) ?_
      exact .last (by simp only [act, cellIdx_wrapped hj, wrappingAdd_wrapped, enqueued])
  | succ w ih =>
      refine .step (load (w + 1)) (by simp) ?_
      refine .step (r := q) (c := .enqueueSeq item (p % 2 ^ 64)) (v := .tau)
        (by simp [act, Pc.spuriousLeft]) (by simp) ?_
      simpa [Pc.spuriousLeft] using ih

theorem enqueue_returns {j D : Nat} (hj : j ≤ 64) {q : MpMcQueue T} {items : List T}
    (hq : Holds (2 ^ j) q items D) (space : items.length < 2 ^ j) (item : T) (w : Nat) :
    Returns (2 ^ j) w q (.enqueueLoad item) (enqueued (2 ^ j) q item (D + items.length))
      (.enqueueOk ((D + items.length) % 2 ^ 64)) := by
  refine .step (r := q) (c := .enqueueSeq item q.enqueuePos) (v := .tau) rfl (by simp) ?_
  rw [hq.enqueuePos]
  exact enqueueSeq_returns hj item hq.enqueuePos (hq.vacant _ (Nat.le_refl _) space) _

theorem Holds.enqueued {j D : Nat} {q : MpMcQueue T} {items : List T}
    (hq : Holds (2 ^ j) q items D) (space : items.length < 2 ^ j) (item : T) :
    Holds (2 ^ j) (enqueued (2 ^ j) q item (D + items.length)) (items ++ [item]) D := by
  have hlen : (items ++ [item]).length = items.length + 1 := by simp
  refine ⟨by omega, ?_, hq.dequeuePos, ?_, ?_⟩
  · rw [hlen]
    rfl
  · intro k hk
    by_cases old : k < items.length
    · have hne := window_ne (D := D) (old.trans space) space (Nat.ne_of_lt old)
      have hcell := hq.filled k old
      simp only [Mpmc.enqueued, setSequence, setData, Function.update_of_ne hne, hcell,
        List.getElem_append_left old]
    · obtain rfl : k = items.length := by omega
      simp [Mpmc.enqueued, setSequence, setData]
  · intro k hk hkN
    have hne := window_ne (D := D) hkN space (by omega : k ≠ items.length)
    simp only [Mpmc.enqueued, setSequence, setData, Function.update_of_ne hne]
    exact hq.vacant k (by omega) hkN

/-- The byte difference an enqueue sees in a full queue of at most 128 cells. -/
theorem full_dif_neg {j : Nat} (hj : 1 ≤ j) (hj' : j ≤ 7) (D : Nat) :
    Int.bmod (((D + 1 : Nat) : Int) - (D + 2 ^ j : Nat)) 256 < 0 := by
  have h : ((D + 1 : Nat) : Int) - (D + 2 ^ j : Nat) = 1 - (2 ^ j : Nat) := by omega
  rw [h]
  interval_cases j <;> decide

/-- With 256 or 512 cells the same difference is positive. -/
theorem full_dif_pos {j : Nat} (hj : 8 ≤ j) (hj' : j ≤ 9) (D : Nat) :
    0 < Int.bmod (((D + 1 : Nat) : Int) - (D + 2 ^ j : Nat)) 256 := by
  have h : ((D + 1 : Nat) : Int) - (D + 2 ^ j : Nat) = 1 - (2 ^ j : Nat) := by omega
  rw [h]
  interval_cases j <;> decide

/-- The sequence a full queue shows at its enqueue position. -/
theorem Holds.full_sequence {N D : Nat} {q : MpMcQueue T} {items : List T}
    (hq : Holds N q items D) (full : items.length = N) (hN : 0 < N) :
    (q.buffer ((D + items.length) % N)).sequence = (D + 1) % 2 ^ 64 := by
  have h := hq.filled 0 (by omega)
  rw [full, Nat.add_mod_right]
  simpa using congrArg Cell.sequence h

theorem enqueue_full {j D : Nat} (hj : 1 ≤ j) (hj' : j ≤ 7) {q : MpMcQueue T} {items : List T}
    (hq : Holds (2 ^ j) q items D) (full : items.length = 2 ^ j) (item : T) (w : Nat) :
    Returns (2 ^ j) w q (.enqueueLoad item) q (.enqueueErr item) := by
  refine .step (r := q) (c := .enqueueSeq item q.enqueuePos) (v := .tau) rfl (by simp) ?_
  apply Returns.last
  have hneg := full_dif_neg hj hj' D
  rw [← full] at hneg
  simp only [act, hq.enqueuePos, cellIdx_wrapped (by omega : j ≤ 64),
    hq.full_sequence full (Nat.two_pow_pos j), dif_wrapped]
  rw [if_neg hneg.ne, if_pos hneg]

/-- With 256 or 512 cells an enqueue into a full queue reloads the same position
for ever: no fuel suffices, at the load of the position or of the sequence. -/
theorem solo_full_eq_none {j D : Nat} (hj : 8 ≤ j) (hj' : j ≤ 9) {q : MpMcQueue T}
    {items : List T} (hq : Holds (2 ^ j) q items D) (full : items.length = 2 ^ j) (item : T)
    (w fuel : Nat) :
    solo (2 ^ j) fuel w q (.enqueueLoad item) = none ∧
      solo (2 ^ j) fuel w q (.enqueueSeq item q.enqueuePos) = none := by
  have hpos := full_dif_pos hj hj' D
  rw [← full] at hpos
  have loop : act (2 ^ j) (decide (0 < w)) q (.enqueueSeq item q.enqueuePos) =
      (q, .enqueueLoad item, .tau) := by
    simp only [act, hq.enqueuePos, cellIdx_wrapped (by omega : j ≤ 64),
      hq.full_sequence full (Nat.two_pow_pos j), dif_wrapped]
    rw [if_neg hpos.ne', if_neg hpos.le.not_gt]
  induction fuel with
  | zero => exact ⟨rfl, rfl⟩
  | succ fuel ih =>
      refine ⟨ih.2, ?_⟩
      rw [solo, loop]
      exact ih.1

/-- The state a dequeue at position `p` leaves behind. -/
def dequeued (N : Nat) (q : MpMcQueue T) (p : Nat) : MpMcQueue T :=
  ({ q with dequeuePos := (p + 1) % 2 ^ 64 }).setSequence (p % N) ((p + N) % 2 ^ 64)

theorem dequeueSeq_returns {j p : Nat} (hj : j ≤ 64) {q : MpMcQueue T} {item : T}
    (hpos : q.dequeuePos = p % 2 ^ 64)
    (hcell : q.buffer (p % 2 ^ j) = ⟨some item, (p + 1) % 2 ^ 64⟩) (w : Nat) :
    Returns (2 ^ j) w q (.dequeueSeq (p % 2 ^ 64)) (dequeued (2 ^ j) q p)
      (.dequeueSome (p % 2 ^ 64) (some item)) := by
  have load : ∀ w, act (2 ^ j) (decide (0 < w)) q (.dequeueSeq (p % 2 ^ 64)) =
      (q, .dequeueCas (p % 2 ^ 64), .tau) := by
    intro w
    simp only [act, cellIdx_wrapped hj, hcell, wrappingAdd_wrapped, dif_wrapped, Int.sub_self]
    rfl
  have hrelease : p + (2 ^ j - 1) + 1 = p + 2 ^ j := by
    have := Nat.two_pow_pos j
    omega
  induction w with
  | zero =>
      refine .step (load 0) (by simp) ?_
      refine .step (r := { q with dequeuePos := (p + 1) % 2 ^ 64 })
        (c := .dequeueRead (p % 2 ^ 64)) (v := .dequeueClaim (p % 2 ^ 64))
        (by simp [act, hpos, Pc.spuriousLeft, wrappingAdd]) (by simp) ?_
      refine .step (r := { q with dequeuePos := (p + 1) % 2 ^ 64 })
        (c := .dequeueStore (p % 2 ^ 64) (some item)) (v := .read (p % 2 ^ 64))
        (by simp only [act, cellIdx_wrapped hj, hcell]) (by simp) ?_
      exact .last (by
        simp only [act, cellIdx_wrapped hj, wrappingAdd_wrapped, hrelease, dequeued])
  | succ w ih =>
      refine .step (load (w + 1)) (by simp) ?_
      refine .step (r := q) (c := .dequeueSeq (p % 2 ^ 64)) (v := .tau)
        (by simp [act, Pc.spuriousLeft]) (by simp) ?_
      simpa [Pc.spuriousLeft] using ih

theorem dequeue_returns {j D : Nat} (hj : j ≤ 64) {q : MpMcQueue T} {item : T} {items : List T}
    (hq : Holds (2 ^ j) q (item :: items) D) (w : Nat) :
    Returns (2 ^ j) w q .dequeueLoad (dequeued (2 ^ j) q D)
      (.dequeueSome (D % 2 ^ 64) (some item)) := by
  refine .step (r := q) (c := .dequeueSeq q.dequeuePos) (v := .tau) rfl (by simp) ?_
  rw [hq.dequeuePos]
  exact dequeueSeq_returns hj hq.dequeuePos (hq.filled 0 (Nat.succ_pos _)) _

theorem Holds.dequeued {j D : Nat} {q : MpMcQueue T} {item : T} {items : List T}
    (hq : Holds (2 ^ j) q (item :: items) D) :
    Holds (2 ^ j) (dequeued (2 ^ j) q D) items (D + 1) := by
  have hle : items.length + 1 ≤ 2 ^ j := by simpa using hq.length_le
  have hshift : ∀ k, D + 1 + k = D + (k + 1) := by omega
  have hother : ∀ k, k + 1 < 2 ^ j → (D + (k + 1)) % 2 ^ j ≠ D % 2 ^ j := by
    intro k hk
    simpa using window_ne (D := D) hk (Nat.two_pow_pos j) (Nat.succ_ne_zero k)
  refine ⟨by omega, ?_, rfl, ?_, ?_⟩
  · rw [Mpmc.dequeued, setSequence_enqueuePos, hq.enqueuePos, List.length_cons, hshift]
  · intro k hk
    have hcell := hq.filled (k + 1) (by simpa using hk)
    rw [hshift]
    simp only [Mpmc.dequeued, setSequence, Function.update_of_ne (hother k (by omega)), hcell,
      List.getElem_cons_succ]
  · intro k hk hkN
    rw [hshift]
    by_cases last : k + 1 = 2 ^ j
    · simp [Mpmc.dequeued, setSequence, last]
    · simp only [Mpmc.dequeued, setSequence, Function.update_of_ne (hother k (by omega))]
      exact hq.vacant (k + 1) (by simpa using hk) (by omega)

theorem dequeue_empty {j D : Nat} (hj : j ≤ 64) {q : MpMcQueue T}
    (hq : Holds (2 ^ j) q [] D) (w : Nat) :
    Returns (2 ^ j) w q .dequeueLoad q .dequeueNone := by
  refine .step (r := q) (c := .dequeueSeq q.dequeuePos) (v := .tau) rfl (by simp) ?_
  apply Returns.last
  have hseq : (q.buffer (D % 2 ^ j)).sequence = D % 2 ^ 64 := by
    simpa using hq.vacant 0 (Nat.le_refl _) (Nat.two_pow_pos j)
  have hneg : Int.bmod ((D : Int) - (D + 1 : Nat)) 256 < 0 := by
    have h : (D : Int) - (D + 1 : Nat) = -1 := by omega
    rw [h]
    decide
  simp only [act, hq.dequeuePos, cellIdx_wrapped hj, hseq, wrappingAdd_wrapped, dif_wrapped]
  rw [if_neg hneg.ne, if_pos hneg]

/-- One call against the FIFO, whenever it is not an enqueue into a full queue
or the capacity is at most 128. -/
theorem call_refines {j D : Nat} (hj : 1 ≤ j) (hj' : j ≤ 9) {q : MpMcQueue T} {items : List T}
    (hq : Holds (2 ^ j) q items D) (op : Op T) (w : Nat)
    (fits : j ≤ 7 ∨ ¬(items.length = 2 ^ j ∧ ∃ item, op = .enqueue item)) :
    ∃ q' e D', Returns (2 ^ j) w q op.entry q' e ∧ e.ret? = some (fifo (2 ^ j) items op).1 ∧
      Holds (2 ^ j) q' (fifo (2 ^ j) items op).2 D' := by
  cases op with
  | enqueue item =>
      by_cases space : items.length < 2 ^ j
      · refine ⟨_, _, D, enqueue_returns (by omega) hq space item w, ?_, ?_⟩
        · simp [Event.ret?, fifo, space]
        · simpa [fifo, space] using hq.enqueued space item
      · have full : items.length = 2 ^ j := le_antisymm hq.length_le (Nat.le_of_not_lt space)
        have small : j ≤ 7 := fits.resolve_right (fun h => h ⟨full, item, rfl⟩)
        refine ⟨q, _, D, enqueue_full hj small hq full item w, ?_, ?_⟩
        · simp [Event.ret?, fifo, full]
        · simpa [fifo, full] using hq
  | dequeue =>
      cases items with
      | nil => exact ⟨q, _, D, dequeue_empty (by omega) hq w, rfl, hq⟩
      | cons item rest => exact ⟨_, _, D + 1, dequeue_returns (by omega) hq w, rfl, hq.dequeued⟩

theorem refines_of_fits {j D : Nat} (hj : 1 ≤ j) (hj' : j ≤ 9) {q : MpMcQueue T}
    {items : List T} (hq : Holds (2 ^ j) q items D) (ops : List (Op T × Nat))
    (fits : j ≤ 7 ∨ ¬Overfills (2 ^ j) items (ops.map Prod.fst)) :
    Refines (2 ^ j) q items ops := by
  induction ops generalizing q items D with
  | nil => trivial
  | cons call rest ih =>
      obtain ⟨op, w⟩ := call
      obtain ⟨q', e, D', hret, hval, hq'⟩ := call_refines hj hj' hq op w
        (fits.imp_right (fun h h' => h (Or.inl h')))
      exact ⟨q', e, hret, hval, ih hq' (fits.imp_right (fun h h' => h (Or.inr h')))⟩

/-- With 256 or 512 cells a sequence that enqueues into a full queue is not
refined: that enqueue does not return. -/
theorem not_refines_of_overfills {j D : Nat} (hj : 8 ≤ j) (hj' : j ≤ 9) {q : MpMcQueue T}
    {items : List T} (hq : Holds (2 ^ j) q items D) (ops : List (Op T × Nat))
    (full : Overfills (2 ^ j) items (ops.map Prod.fst)) : ¬Refines (2 ^ j) q items ops := by
  induction ops generalizing q items D with
  | nil => exact full.elim
  | cons call rest ih =>
      obtain ⟨op, w⟩ := call
      rintro ⟨q', e, hret, -, hrest⟩
      by_cases now : items.length = 2 ^ j ∧ ∃ item, op = .enqueue item
      · obtain ⟨hlen, item, rfl⟩ := now
        obtain ⟨fuel, hfuel⟩ := hret
        rw [Op.entry, (solo_full_eq_none hj hj' hq hlen item w fuel).1] at hfuel
        cases hfuel
      · obtain ⟨q₂, e₂, D', hret₂, -, hq₂⟩ := call_refines (by omega) hj' hq op w (Or.inr now)
        obtain ⟨rfl, -⟩ := hret.unique hret₂
        exact ih hq₂ (full.resolve_left now) hrest

/-- Filling an empty queue and enqueueing once more is an overfilling sequence. -/
theorem overfills_replicate {N : Nat} (item : T) (n : Nat) (items : List T)
    (hlen : items.length + n = N) :
    Overfills N items ((List.replicate (n + 1) (Op.enqueue item, 0)).map Prod.fst) := by
  induction n generalizing items with
  | zero => exact Or.inl ⟨hlen, item, rfl⟩
  | succ n ih =>
      refine Or.inr ?_
      have space : items.length < N := by omega
      have h := ih (items ++ [item]) (by simp; omega)
      simpa [fifo, space, List.replicate_succ] using h

/-- A queue of `2 ^ j` cells, `2` to `512` of them, refines the FIFO on a call
sequence exactly when it has at most 128 cells or the sequence never enqueues
into a full queue. Counters may pass any multiple of 256 and of the word size. -/
theorem refines_fifo_iff {j : Nat} (hj : 1 ≤ j) (hj' : j ≤ 9) (ops : List (Op T × Nat)) :
    Refines (2 ^ j) MpMcQueue.new [] ops ↔
      2 ^ j ≤ 128 ∨ ¬Overfills (2 ^ j) [] (ops.map Prod.fst) := by
  have hnew : Holds (2 ^ j) (MpMcQueue.new (T := T)) [] 0 :=
    holds_new _ (Nat.pow_lt_pow_right (by decide) (by omega))
  have hsmall : 2 ^ j ≤ 128 ↔ j ≤ 7 := Nat.pow_le_pow_iff_right (m := 7) Nat.one_lt_two
  rw [hsmall]
  constructor
  · intro h
    by_contra hcon
    obtain ⟨hlarge, hover⟩ := not_or.mp hcon
    exact not_refines_of_overfills (by omega) hj' hnew ops (not_not.mp hover) h
  · exact refines_of_fits hj hj' hnew ops

theorem refines_fifo_iff_q512 :
    Refines (2 ^ 9) MpMcQueue.new [] [(Op.enqueue 7, 1), (Op.dequeue, 0)] ↔
      2 ^ 9 ≤ 128 ∨ ¬Overfills (2 ^ 9) [] [Op.enqueue 7, Op.dequeue] :=
  refines_fifo_iff (j := 9) (by decide) (by decide) _

/-- `Q256` diverges from the FIFO on 257 enqueues in a row: the last one finds
the queue full and never returns. -/
theorem q256_not_refines_fifo :
    ¬Refines (2 ^ 8) MpMcQueue.new [] (List.replicate 257 (Op.enqueue (0 : Nat), 0)) :=
  not_refines_of_overfills (j := 8) (by decide) (by decide)
    (holds_new _ (by decide)) _ (overfills_replicate 0 256 [] rfl)

end UniAlloc.Mpmc
