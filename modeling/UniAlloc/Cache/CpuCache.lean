import Mathlib.Data.List.Perm.Basic
import Mathlib.Data.List.TakeDrop

/-!
# The cache of a processor

Each processor keeps a stack of free objects for every size class. When a stack is empty
a batch of objects is taken from the slab allocator; one of them answers the request, the
others are pushed, and what does not fit goes back. When it is full a batch of objects
goes back to the slab allocator. A panic is `none`.
-/

namespace UniAlloc.Cache.PerCpu

/-- The stack of one size class on one processor. Pushing and popping are restartable
sequences, which happen as a whole. -/
structure Stack where
  items : List Nat
  capacity : Nat

namespace Stack

/-- Fails when the stack is full. -/
def push (s : Stack) (ptr : Nat) : Option Stack :=
  if s.items.length < s.capacity then some { s with items := ptr :: s.items } else none

/-- Fails when the stack is empty. -/
def pop (s : Stack) : Option (Nat × Stack) :=
  match s.items with
  | [] => none
  | ptr :: items => some (ptr, { s with items })

def Full (s : Stack) : Prop := s.capacity ≤ s.items.length

instance (s : Stack) : Decidable s.Full := inferInstanceAs (Decidable (_ ≤ _))

end Stack

/-- The words of a batch. -/
def BATCH_LEN : Nat := 512

/-- The `while` loop of `push_batch`, with the rounds that are left until `len`. -/
def pushLoop (batch : List Nat) (start_idx : Nat) : Nat → Nat → Stack → Option (Nat × Stack)
  | 0, n, s => some (n, s)
  | rounds + 1, n, s => do
      let ptr ← batch[n - start_idx]?
      match s.push ptr with
      | some s => pushLoop batch start_idx rounds (n + 1) s
      | none => some (n, s)

/-- Pushes objects of the batch, and returns the index that it has reached. -/
def pushBatch (s : Stack) (batch : List Nat) (len start_idx : Nat) : Option (Nat × Stack) :=
  pushLoop batch start_idx (len - start_idx) start_idx s

/-- The `while` loop of `pop_batch`. -/
def popLoop : Nat → Nat → List Nat → Stack → Option (Nat × List Nat × Stack)
  | 0, n, batch, s => some (n, batch, s)
  | rounds + 1, n, batch, s =>
      match s.pop with
      | some (p, s) =>
          if n < batch.length then popLoop rounds (n + 1) (batch.set n p) s else none
      | none => some (n, batch, s)

/-- Pops objects into the batch, and returns the index that it has reached. -/
def popBatch (s : Stack) (batch : List Nat) (len start_idx : Nat) :
    Option (Nat × List Nat × Stack) :=
  popLoop (len - start_idx) start_idx batch s

/-- What a refill or an eviction leaves: its answer, the stack, and the objects that
`deallocate_batch_to_slab` has been given. -/
structure Outcome (α : Type) where
  answer : Option α
  stack : Stack
  freed : List Nat

/-- `batch[from..]` with `n` objects, as `deallocate_batch_to_slab` takes it. -/
def slice (batch : List Nat) (start n : Nat) : List Nat := (batch.drop start).take n

/-- Refills the stack of processor `cpu`, when it still runs the thread. `slab` is
`allocate_batch_from_slab`: the objects that it writes to a batch of the given size, or an
error. -/
def refillCache (slab : Nat → Option (List Nat)) (cwnd cpu_id cpu : Nat) (s : Stack) :
    Option (Outcome Nat) :=
  let batch := List.replicate BATCH_LEN 0
  let batch_size := cwnd
  if cpu_id = cpu then
    match slab batch_size with
    | some objects => do
        let batch := objects ++ batch.drop objects.length
        let (n, s) ← pushBatch s batch batch_size 1
        let freed := if n < batch_size then slice batch n (batch_size - n) else []
        let answer ← batch[0]?
        some ⟨some answer, s, freed⟩
    | none => some ⟨none, s, []⟩
  else some ⟨none, s, []⟩

/-- Gives back `ptr` together with objects of the stack. -/
def evictCache (ptr cwnd cpu_id cpu : Nat) (s : Stack) : Option (Outcome Unit) :=
  let batch := List.replicate BATCH_LEN 0
  let batch_size := cwnd
  if cpu_id = cpu then do
    let batch := batch.set 0 ptr
    let (n, batch, s) ← popBatch s batch (batch_size - 1) 1
    some ⟨some (), s, slice batch 0 n⟩
  else some ⟨none, s, []⟩

variable {batch objects : List Nat} {start_idx rounds n cwnd cpu ptr : Nat} {s : Stack}

/-- The loop pushes the objects from `n - start_idx` on until the stack is full. -/
theorem pushLoop_spec (batch : List Nat) (rounds : Nat) (s : Stack) (hstart : start_idx ≤ n)
    (hlen : n - start_idx + rounds ≤ batch.length) :
    ∃ j ≤ rounds, pushLoop batch start_idx rounds n s =
        some (n + j, { s with items := (slice batch (n - start_idx) j).reverse ++ s.items }) ∧
      (0 < rounds → (j = 0 ↔ s.Full)) := by
  induction rounds generalizing n s with
  | zero => exact ⟨0, Nat.le_refl 0, rfl, fun h => absurd h (Nat.lt_irrefl 0)⟩
  | succ rounds ih =>
      have hlt : n - start_idx < batch.length := by omega
      by_cases hfull : s.Full
      · refine ⟨0, Nat.zero_le _, ?_, fun _ => iff_of_true rfl hfull⟩
        have hpush : s.push batch[n - start_idx] = none := if_neg (Nat.not_lt.mpr hfull)
        rw [pushLoop, List.getElem?_eq_getElem hlt]
        simp only [Option.bind_eq_bind, Option.bind_some, hpush]
        rfl
      · have hpush : s.push batch[n - start_idx] =
            some { s with items := batch[n - start_idx] :: s.items } :=
          if_pos (Nat.not_le.mp hfull)
        obtain ⟨j, hj, hloop, -⟩ := ih { s with items := batch[n - start_idx] :: s.items }
          (show start_idx ≤ n + 1 by omega) (by omega)
        refine ⟨j + 1, by omega, ?_, fun _ => iff_of_false (Nat.succ_ne_zero j) hfull⟩
        rw [pushLoop, List.getElem?_eq_getElem hlt]
        simp only [Option.bind_eq_bind, Option.bind_some, hpush, hloop]
        have hnext : n + 1 - start_idx = n - start_idx + 1 := by omega
        have hslice : slice batch (n - start_idx) (j + 1) =
            batch[n - start_idx] :: slice batch (n - start_idx + 1) j := by
          rw [slice, List.drop_eq_getElem_cons hlt, List.take_succ_cons, slice]
        rw [hnext, hslice, List.reverse_cons, List.append_assoc, Nat.add_assoc, Nat.add_comm 1]
        rfl

/-- The loop moves objects from the top of the stack to the batch. -/
theorem popLoop_spec (batch : List Nat) (s : Stack) (hlen : n + rounds ≤ batch.length) :
    ∃ popped items batch', s.items = popped ++ items ∧
      popLoop rounds n batch s = some (n + popped.length, batch', { s with items }) ∧
      batch'.take (n + popped.length) = batch.take n ++ popped := by
  induction rounds generalizing n batch s with
  | zero => exact ⟨[], s.items, batch, rfl, rfl, (List.append_nil _).symm⟩
  | succ rounds ih =>
      obtain ⟨_ | ⟨p, items⟩, capacity⟩ := s
      · exact ⟨[], [], batch, rfl, rfl, (List.append_nil _).symm⟩
      · have hlt : n < batch.length := by omega
        obtain ⟨popped, rest, batch', hitems, hloop, htake⟩ := ih (batch.set n p)
          ⟨items, capacity⟩ (show n + 1 + rounds ≤ _ by rw [List.length_set]; omega)
        have hn : n + (p :: popped).length = n + 1 + popped.length := by
          rw [List.length_cons]
          omega
        refine ⟨p :: popped, rest, batch', congrArg (p :: ·) hitems, ?_, ?_⟩
        · rw [hn, ← hloop]
          exact if_pos hlt
        · rw [hn, htake, List.take_add_one, List.take_set_of_le (Nat.le_refl n),
            List.getElem?_set_self hlt, List.append_assoc]
          rfl

/-- Each object of a batch is the answer, or has been pushed, or has been given back, and only
one of these. -/
def Partitions (objects : List Nat) (s : Stack) (o : Outcome Nat) : Prop :=
  ∃ pushed, o.stack.items = pushed ++ s.items ∧
    (o.answer.toList ++ pushed ++ o.freed).Perm objects

/-- What is given back is `ptr` and what has been popped. -/
def GivesBack (ptr : Nat) (s : Stack) (o : Outcome Unit) : Prop :=
  ∃ popped, s.items = popped ++ o.stack.items ∧ o.freed.Perm (ptr :: popped)

/-- A refill answers with the first object, pushes objects from the first on, and gives back
those from the one after the last pushed on. -/
theorem refillCache_spec {slab : Nat → Option (List Nat)} (hslab : slab cwnd = some objects)
    (hlen : objects.length = cwnd) (hlo : 2 ≤ cwnd) (hhi : cwnd ≤ BATCH_LEN) (s : Stack)
    (cpu : Nat) :
    ∃ j < cwnd, (j = 0 ↔ s.Full) ∧ ∃ o, refillCache slab cwnd cpu cpu s = some o ∧
      o.answer = objects[0]? ∧ o.stack.items = (objects.take j).reverse ++ s.items ∧
      o.freed = objects.drop (j + 1) := by
  generalize hbatch : objects ++ (List.replicate BATCH_LEN 0).drop objects.length = batch
  have hbatchLen : batch.length = BATCH_LEN := by
    rw [← hbatch, List.length_append, List.length_drop, List.length_replicate]
    omega
  have hslice : ∀ i m, i + m ≤ cwnd → slice batch i m = slice objects i m := by
    intro i m him
    rw [slice, slice, ← hbatch, List.drop_append_of_le_length (by omega),
      List.take_append_of_le_length (by rw [List.length_drop]; omega)]
  obtain ⟨j, hj, hloop, hfull⟩ := pushLoop_spec batch (cwnd - 1) s (Nat.le_refl 1) (by omega)
  refine ⟨j, by omega, hfull (by omega), ?_⟩
  obtain ⟨x, hx⟩ : ∃ x, objects[0]? = some x := ⟨_, List.getElem?_eq_getElem (by omega)⟩
  have hanswer : batch[0]? = some x := by
    rw [← hbatch, List.getElem?_append_left (by omega), hx]
  have hfreed : (if 1 + j < cwnd then slice batch (1 + j) (cwnd - (1 + j)) else []) =
      objects.drop (j + 1) := by
    rw [Nat.add_comm j]
    split
    · rw [hslice _ _ (by omega), slice, List.take_of_length_le]
      rw [List.length_drop]
      omega
    · rw [List.drop_eq_nil_of_le (by omega)]
  rw [hslice _ _ (by omega)] at hloop
  refine ⟨⟨some x, ⟨(objects.take j).reverse ++ s.items, s.capacity⟩, objects.drop (j + 1)⟩,
    ?_, hx.symm, rfl, rfl⟩
  simp only [refillCache, if_true, hslab, hbatch, pushBatch, hloop, Option.bind_eq_bind,
    Option.bind_some, hanswer, hfreed]
  rfl

/-- An eviction gives back what it has popped, behind `ptr`. -/
theorem evictCache_spec (ptr : Nat) (s : Stack) (cpu : Nat) (hlo : 2 ≤ cwnd)
    (hhi : cwnd ≤ BATCH_LEN) :
    ∃ o, evictCache ptr cwnd cpu cpu s = some o ∧ GivesBack ptr s o := by
  have hlen : ((List.replicate BATCH_LEN 0).set 0 ptr).length = BATCH_LEN := by
    rw [List.length_set, List.length_replicate]
  have hrounds : 1 + (cwnd - 1 - 1) ≤ BATCH_LEN := by omega
  obtain ⟨popped, items, batch', hitems, hloop, htake⟩ :=
    popLoop_spec ((List.replicate BATCH_LEN 0).set 0 ptr) s (hlen ▸ hrounds)
  refine ⟨⟨some (), { s with items }, slice batch' 0 (1 + popped.length)⟩, ?_, popped, hitems, ?_⟩
  · simp only [evictCache, if_true, popBatch, hloop, Option.bind_eq_bind, Option.bind_some]
  · change (batch'.take (1 + popped.length)).Perm _
    rw [htake]
    exact List.Perm.refl _

/-- With a push, the answer is on the stack as well. -/
theorem partitions_iff {o : Outcome Nat} {j : Nat} (hj : j < objects.length) (nodup : objects.Nodup)
    (hanswer : o.answer = objects[0]?)
    (hitems : o.stack.items = (objects.take j).reverse ++ s.items)
    (hfreed : o.freed = objects.drop (j + 1)) : Partitions objects s o ↔ j = 0 := by
  obtain ⟨x, rest, rfl⟩ := List.exists_cons_of_length_pos (Nat.zero_lt_of_lt hj)
  constructor
  · rintro ⟨pushed, hpushed, perm⟩
    obtain rfl : pushed = ((x :: rest).take j).reverse :=
      List.append_cancel_right (hpushed.symm.trans hitems)
    have hnodup := perm.nodup_iff.mpr nodup
    rw [hanswer] at hnodup
    by_contra hne
    obtain ⟨j, rfl⟩ := Nat.exists_eq_succ_of_ne_zero hne
    refine (List.nodup_cons.mp hnodup).1 (List.mem_append_left _ ?_)
    exact List.mem_reverse.mpr List.mem_cons_self
  · rintro rfl
    refine ⟨[], hitems, ?_⟩
    rw [hanswer, hfreed]
    exact List.Perm.refl _

/-- A refill accounts for its objects exactly when the stack is full. Evictions always do. -/
theorem batches_conserved_iff {slab : Nat → Option (List Nat)}
    (hslab : slab cwnd = some objects) (hlen : objects.length = cwnd) (nodup : objects.Nodup)
    (hlo : 2 ≤ cwnd) (hhi : cwnd ≤ BATCH_LEN) (s : Stack) (cpu ptr : Nat) :
    ((∃ o, refillCache slab cwnd cpu cpu s = some o ∧ Partitions objects s o) ∧
      ∃ o, evictCache ptr cwnd cpu cpu s = some o ∧ GivesBack ptr s o) ↔ s.Full := by
  obtain ⟨j, hj, hfull, o, hrefill, hanswer, hitems, hfreed⟩ :=
    refillCache_spec hslab hlen hlo hhi s cpu
  have hiff : Partitions objects s o ↔ j = 0 :=
    partitions_iff (hlen ▸ hj) nodup hanswer hitems hfreed
  rw [← hfull, ← hiff]
  constructor
  · rintro ⟨⟨o', hrefill', partitions⟩, -⟩
    obtain rfl : o = o' := Option.some.inj (hrefill.symm.trans hrefill')
    exact partitions
  · intro partitions
    exact ⟨⟨o, hrefill, partitions⟩, evictCache_spec ptr s cpu hlo hhi⟩

/-- Two objects, when there is no room for one of them. -/
theorem batches_conserved_iff_two :
    ((∃ o, refillCache (fun _ => some [0x1000, 0x2000]) 2 0 0 ⟨[0x3000], 1⟩ = some o ∧
        Partitions [0x1000, 0x2000] ⟨[0x3000], 1⟩ o) ∧
      ∃ o, evictCache 0x4000 2 0 0 ⟨[0x3000], 1⟩ = some o ∧ GivesBack 0x4000 ⟨[0x3000], 1⟩ o) ↔
      Stack.Full ⟨[0x3000], 1⟩ :=
  batches_conserved_iff rfl rfl (by decide : [0x1000, 0x2000].Nodup) (by decide : 2 ≤ 2)
    (by decide : 2 ≤ BATCH_LEN) _ 0 0x4000

/-- The stack is empty and has room. The first object is the answer and is pushed, and the
second is on no list any more. -/
theorem refill_loses_object :
    ¬ ∀ (slab : Nat → Option (List Nat)) (objects : List Nat) (cwnd cpu : Nat) (s : Stack),
      slab cwnd = some objects → objects.length = cwnd → objects.Nodup → 2 ≤ cwnd →
        cwnd ≤ BATCH_LEN →
          ∃ o, refillCache slab cwnd cpu cpu s = some o ∧ Partitions objects s o := by
  intro h
  obtain ⟨o, hrefill, pushed, hitems, perm⟩ :=
    h (fun _ => some [0x1000, 0x2000]) [0x1000, 0x2000] 2 0 ⟨[], 8⟩ rfl rfl (by decide)
      (by decide) (by decide)
  obtain rfl : ⟨some 0x1000, ⟨[0x1000], 8⟩, []⟩ = o := Option.some.inj hrefill
  obtain rfl : [0x1000] = pushed := hitems.trans (List.append_nil pushed)
  exact absurd perm (by decide)

end UniAlloc.Cache.PerCpu
