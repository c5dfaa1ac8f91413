import UniAlloc.PerCpu.Stacks
import Mathlib.Data.List.Basic

/-!
# Restartable sequences act at once

The machine with all its threads refines the stacks: whatever is seen of a run, calls, commit
points and returns, is a run of `Spec`, and the arrays in memory are the stacks. A thread that
loses its CPU before the commit point has done nothing yet.
-/

namespace UniAlloc.PerCpu

open Transition

variable {ι : Type} [DecidableEq ι] {S : Slabs}

/-- A thread in a call. Outside the sequence it is at one of its ends; inside it has its CPU, and
`rseq_cs` says so. -/
inductive InCall (S : Slabs) (mem : Mem) (op : Op) (th : Thread) : Prop where
  | starts : th.ip = 0 → InCall S mem op th
  | inside {cpu} : th.cpu = some cpu → th.rseqCs = some op → Stage S mem cpu op th.ip th.regs →
      InCall S mem op th
  | ends : th.ip = op.code.length → (answer S th.regs op).isSome → InCall S mem op th

/-- What holds of a thread. -/
structure ThreadOk (S : Slabs) (mem : Mem) (th : Thread) : Prop where
  cpu : ∀ {cpu}, th.cpu = some cpu → cpu < S.ncpu ∧ th.cpuId = cpu
  valid : ∀ {op}, th.op = some op → op.Valid S
  inCall : ∀ {op}, th.op = some op → InCall S mem op th

/-- The call as the specification sees it: it has an answer from the commit point on. -/
def callOf (S : Slabs) (th : Thread) : Option (Op × Option Answer) :=
  th.op.map fun op => (op, if th.ip = op.code.length then answer S th.regs op else none)

/-- The machine keeps its invariant and agrees with the specification. -/
structure Refines (S : Slabs) (s : State ι) (a : Spec.State ι) : Prop where
  slab : ∀ cpu < S.ncpu, SlabOk S s.mem cpu
  thread : ∀ t, ThreadOk S s.mem (s.thread t)
  apart : ∀ {t u cpu}, (s.thread t).cpu = some cpu → (s.thread u).cpu = some cpu → t = u
  stack : ∀ cpu < S.ncpu, ∀ cl < S.classes, a.stack cpu cl = S.contents s.mem cpu cl
  calls : ∀ t, a.calls t = callOf S (s.thread t)

section Frame

variable {mem mem' : Mem} {cpu : Nat} {op : Op} {th : Thread}

/-- The words of a slab determine its arrays. -/
theorem SlabOk.contents_congr (h : SlabOk S mem cpu)
    (same : ∀ k < Slabs.WORDS, mem' (S.word cpu k) = mem (S.word cpu k)) {cl : Nat}
    (hcl : cl < S.classes) : S.contents mem' cpu cl = S.contents mem cpu cl := by
  refine Slabs.contents_congr ?_ fun i hi => ?_
  · rw [Slabs.size, Slabs.size, Slabs.header, Slabs.header, same cl (S.header_lt hcl)]
  · exact same _ (S.slot_lt hcl (hi.trans_le (h.header cl hcl).size_le))

theorem SlabOk.congr (h : SlabOk S mem cpu)
    (same : ∀ k < Slabs.WORDS, mem' (S.word cpu k) = mem (S.word cpu k)) : SlabOk S mem' cpu :=
  ⟨fun cl hcl => (h.header cl hcl).congr (same cl (S.header_lt hcl)), fun cl hcl x hx =>
    h.nonnull cl hcl x (h.contents_congr same hcl ▸ hx)⟩

/-- A thread depends on the slab of its own CPU. -/
theorem ThreadOk.congr (h : ThreadOk S mem th) (slab : ∀ cpu < S.ncpu, SlabOk S mem cpu)
    (same : ∀ cpu, th.cpu = some cpu → ∀ k < Slabs.WORDS,
      mem' (S.word cpu k) = mem (S.word cpu k)) : ThreadOk S mem' th := by
  refine ⟨h.cpu, h.valid, fun hop => ?_⟩
  have hcl := (h.valid hop).1
  cases h.inCall hop with
  | starts hip => exact .starts hip
  | inside hcpu hcs stage =>
      have ok := (slab _ (h.cpu hcpu).1).header _ hcl
      exact .inside hcpu hcs (stage.congr hcl ok (same _ hcpu))
  | ends hip hans => exact .ends hip hans

end Frame

namespace Refines

variable {s s' : State ι} {a : Spec.State ι} {t : ι} {mem : Mem} {th : Thread}

/-- One thread moves, and changes no slab but that of its own CPU. -/
theorem next (h : Refines S s a) {b : Spec.State ι} (slab : ∀ cpu < S.ncpu, SlabOk S mem cpu)
    (thread : ThreadOk S mem th)
    (apart : ∀ u ≠ t, ∀ cpu, th.cpu = some cpu → (s.thread u).cpu ≠ some cpu)
    (outside : ∀ u ≠ t, ∀ cpu, (s.thread u).cpu = some cpu → ∀ k < Slabs.WORDS,
      mem (S.word cpu k) = s.mem (S.word cpu k))
    (stack : ∀ cpu < S.ncpu, ∀ cl < S.classes, b.stack cpu cl = S.contents mem cpu cl)
    (calls : b.calls = Function.update a.calls t (callOf S th)) :
    Refines S ⟨mem, Function.update s.thread t th⟩ b := by
  constructor
  case slab => exact slab
  case thread =>
    intro u
    obtain rfl | hu := eq_or_ne u t
    · simpa using thread
    · simpa [hu] using (h.thread u).congr h.slab (outside u hu)
  case apart =>
    intro u v cpu hu hv
    obtain rfl | hut := eq_or_ne u t
    · obtain rfl | hvt := eq_or_ne v u
      · rfl
      · simp only [Function.update_self, Function.update_of_ne hvt] at hu hv
        exact absurd hv (apart v hvt cpu hu)
    · obtain rfl | hvt := eq_or_ne v t
      · simp only [Function.update_self, Function.update_of_ne hut] at hu hv
        exact absurd hu (apart u hut cpu hv)
      · simp only [Function.update_of_ne hut, Function.update_of_ne hvt] at hu hv
        exact h.apart hu hv
  case stack => exact stack
  case calls =>
    intro u
    obtain rfl | hu := eq_or_ne u t
    · simp [calls]
    · simp [calls, hu, h.calls u]

/-- A step that touches neither memory nor the call as the specification sees it. -/
theorem silent (h : Refines S s a) (thread : ThreadOk S s.mem th)
    (apart : ∀ u ≠ t, ∀ cpu, th.cpu = some cpu → (s.thread u).cpu ≠ some cpu)
    (call : callOf S th = callOf S (s.thread t)) :
    Refines S ⟨s.mem, Function.update s.thread t th⟩ a := by
  refine h.next h.slab thread apart (fun _ _ _ _ _ _ => rfl) h.stack ?_
  rw [call, ← h.calls t, Function.update_eq_self]

omit [DecidableEq ι] in
theorem apart_of_cpu (h : Refines S s a) (same : th.cpu = (s.thread t).cpu) :
    ∀ u ≠ t, ∀ cpu, th.cpu = some cpu → (s.thread u).cpu ≠ some cpu :=
  fun _ hu _ hcpu hcpu' => hu (h.apart hcpu' (same ▸ hcpu))

/-- A step that changes one array of the thread's CPU. -/
theorem stored (h : Refines S s a) {b : Spec.State ι} {cpu cl : Nat} {l : List Nat}
    (hcpu : (s.thread t).cpu = some cpu) (same : th.cpu = (s.thread t).cpu) (hcl : cl < S.classes)
    (thread : ThreadOk S mem th) (stores : Stores S s.mem mem cpu cl l)
    (stack : ∀ c < S.ncpu, ∀ cl' < S.classes,
      b.stack c cl' = if c = cpu ∧ cl' = cl then l else a.stack c cl')
    (calls : b.calls = Function.update a.calls t (callOf S th)) :
    Refines S ⟨mem, Function.update s.thread t th⟩ b := by
  refine h.next (fun c hlt => ?_) thread (h.apart_of_cpu same) (fun u hu c hc k hk => ?_)
    (fun c hlt cl' hcl' => ?_) calls
  · obtain rfl | hne := eq_or_ne c cpu
    · exact stores.slab
    · exact (h.slab c hlt).congr (stores.outside c hne)
  · refine stores.outside c ?_ k hk
    rintro rfl
    exact hu (h.apart hc hcpu)
  · rw [stack c hlt cl' hcl']
    obtain rfl | hne := eq_or_ne c cpu
    · obtain rfl | hne := eq_or_ne cl' cl
      · rw [if_pos ⟨rfl, rfl⟩, stores.contents]
      · rw [if_neg fun heq => hne heq.2, stores.others cl' hcl' hne, h.stack c hlt cl' hcl']
    · rw [if_neg fun heq => hne heq.1, h.stack c hlt cl' hcl',
        (h.slab c hlt).contents_congr (stores.outside c hne) hcl']

theorem call (h : Refines S s a) {op : Op} (hop : (s.thread t).op = none) (valid : op.Valid S) :
    ∃ b, Spec.Step S.ncpu S.classes S.cap a (.call t op) b ∧ Refines S
      { s with thread := Function.update s.thread t { s.thread t with op := some op, ip := 0 } }
      b := by
  have hcalls := h.calls t
  rw [callOf, hop] at hcalls
  refine ⟨_, .call hcalls, h.next h.slab ⟨(h.thread t).cpu, ?_, ?_⟩ (h.apart_of_cpu rfl)
    (fun _ _ _ _ _ _ => rfl) h.stack ?_⟩
  · rintro _ ⟨⟩
    exact valid
  · rintro _ ⟨⟩
    exact .starts rfl
  · have hlen := op.le_length_code
    simp only [Spec.State.setCall, callOf, Option.map_some]
    rw [if_neg (by omega)]

theorem ret (h : Refines S s a) {op : Op} (hop : (s.thread t).op = some op)
    (hip : (s.thread t).ip = op.code.length) :
    ∃ b, Spec.Step S.ncpu S.classes S.cap a (.ret t (answer S (s.thread t).regs op)) b ∧ Refines S
      { s with thread := Function.update s.thread t { s.thread t with op := none } } b := by
  obtain ⟨ans, hans⟩ : ∃ ans, answer S (s.thread t).regs op = some ans := by
    cases (h.thread t).inCall hop with
    | starts h0 =>
        have hlen := op.le_length_code
        omega
    | inside _ _ stage => exact absurd hip stage.ip_lt.ne
    | ends _ hsome => exact Option.isSome_iff_exists.mp hsome
  have hcalls := h.calls t
  rw [callOf, hop, Option.map_some, if_pos hip, hans] at hcalls
  rw [hans]
  refine ⟨_, .ret hcalls, h.next h.slab ⟨(h.thread t).cpu, ?_, ?_⟩ (h.apart_of_cpu rfl)
    (fun _ _ _ _ _ _ => rfl) h.stack rfl⟩
  · exact fun hnone => absurd hnone.symm (Option.some_ne_none _)
  · exact fun hnone => absurd hnone.symm (Option.some_ne_none _)

/-- A thread that loses its CPU inside the sequence starts again, and has not taken effect. -/
theorem preempt (h : Refines S s a) {ip : Nat} (resumes : (s.thread t).Resumes ip) :
    Refines S { s with
      thread := Function.update s.thread t { s.thread t with ip, rseqCs := none, cpu := none } }
      a := by
  have hnone : ∀ {cpu : Nat}, (none : Option Nat) ≠ some cpu := (Option.some_ne_none _).symm
  cases hop : (s.thread t).op with
  | none =>
      refine h.silent ⟨fun hcpu => absurd hcpu hnone, ?_, ?_⟩ (fun _ _ _ hcpu => absurd hcpu hnone)
        (by simp only [callOf, hop, Option.map_none])
      · exact fun hop' => absurd (hop.symm.trans hop') (Option.some_ne_none _).symm
      · exact fun hop' => absurd (hop.symm.trans hop') (Option.some_ne_none _).symm
  | some op =>
      have hlen := op.le_length_code
      -- outside the sequence the thread goes on where it was
      have hout : ¬(1 ≤ (s.thread t).ip ∧ (s.thread t).ip < op.code.length) →
          ip = (s.thread t).ip := by
        intro hip
        obtain ⟨⟨op', hop', inside⟩, -⟩ | ⟨-, hsame⟩ := resumes
        · obtain rfl := Option.some.inj (hop.symm.trans hop')
          exact absurd inside.2 hip
        · exact hsame
      have hthread : ∀ th : Thread, th.cpu = none → th.op = some op → InCall S s.mem op th →
          ThreadOk S s.mem th := by
        refine fun th hcpu hop' hin => ⟨fun hcpu' => absurd (hcpu.symm.trans hcpu') hnone,
          fun hop'' => ?_, fun hop'' => ?_⟩
        · obtain rfl := Option.some.inj (hop'.symm.trans hop'')
          exact (h.thread t).valid hop
        · obtain rfl := Option.some.inj (hop'.symm.trans hop'')
          exact hin
      refine h.silent (hthread _ rfl hop ?_) (fun _ _ _ hcpu => absurd hcpu hnone) ?_
      · cases (h.thread t).inCall hop with
        | starts h0 => exact .starts ((hout (by omega)).trans h0)
        | inside hcpu hcs stage =>
            obtain ⟨-, h0⟩ | ⟨hnot, -⟩ := resumes
            · exact .starts h0
            · refine absurd ⟨⟨op, hcs, ?_⟩, stage.ip_pos, stage.ip_lt⟩ (hnot op hop)
              cases op <;> rfl
        | ends hend hans => exact .ends ((hout (by omega)).trans hend) hans
      · simp only [callOf, hop, Option.map_some]
        by_cases hip : 1 ≤ (s.thread t).ip ∧ (s.thread t).ip < op.code.length
        · have hip' : ip < op.code.length := by
            obtain ⟨-, h0⟩ | ⟨-, hsame⟩ := resumes <;> omega
          rw [if_neg hip'.ne, if_neg hip.2.ne]
        · rw [hout hip]

theorem resume (h : Refines S s a) {cpu : Nat} (hcpu : (s.thread t).cpu = none)
    (lt : cpu < S.ncpu) (free : ∀ u, (s.thread u).cpu ≠ some cpu) :
    Refines S { s with
      thread := Function.update s.thread t { s.thread t with cpuId := cpu, cpu := some cpu } }
      a := by
  have ok := h.thread t
  refine h.silent ⟨?_, ok.valid, fun hop => ?_⟩ (fun u _ c hc => ?_) rfl
  · rintro _ ⟨⟩
    exact ⟨lt, rfl⟩
  · cases ok.inCall hop with
    | starts h0 => exact .starts h0
    | inside hc => exact absurd (hcpu.symm.trans hc) (Option.some_ne_none _).symm
    | ends hend hans => exact .ends hend hans
  · cases hc
    exact free u

/-- An instruction: the call takes effect when the commit point is reached, and not before. -/
theorem exec (h : Refines S s a) {cpu : Nat} {op : Op} {instr : Instr}
    (hcpu : (s.thread t).cpu = some cpu) (hop : (s.thread t).op = some op)
    (hinstr : op.code[(s.thread t).ip]? = some instr)
    (hexec : PerCpu.exec S op s.mem (s.thread t) instr = (mem, th)) :
    th.ip ≠ op.code.length ∧ Refines S ⟨mem, Function.update s.thread t th⟩ a ∨
    th.ip = op.code.length ∧ ∃ b,
      Spec.Step S.ncpu S.classes S.cap a (.commit t op cpu (answer S th.regs op)) b ∧
      Refines S ⟨mem, Function.update s.thread t th⟩ b := by
  have hlen := op.le_length_code
  have ok := h.thread t
  have valid := ok.valid hop
  obtain ⟨hlt, hid⟩ := ok.cpu hcpu
  obtain ⟨hop', hcpu', hid', hcs'⟩ := exec_thread hexec
  have hthread : InCall S mem op th → ThreadOk S mem th := by
    refine fun hin => ⟨fun hc => ?_, fun hop'' => ?_, fun hop'' => ?_⟩
    · obtain rfl := Option.some.inj (hcpu.symm.trans (hcpu'.symm.trans hc))
      exact ⟨hlt, hid'.trans hid⟩
    · obtain rfl := Option.some.inj (hop.symm.trans (hop'.symm.trans hop''))
      exact valid
    · obtain rfl := Option.some.inj (hop.symm.trans (hop'.symm.trans hop''))
      exact hin
  have hcall : ∀ {ip : Nat} {r : Regs}, ip ≠ op.code.length →
      some (op, (if ip = op.code.length then answer S r op else none)) = some (op, none) :=
    fun hne => by rw [if_neg hne]
  cases ok.inCall hop with
  | starts h0 =>
      have hset : instr = .setCs := by
        rw [h0] at hinstr
        cases op <;> exact (Option.some.inj hinstr).symm
      subst hset
      cases hexec
      refine .inl ⟨by simp only [h0]; omega, h.silent (hthread (.inside hcpu rfl ?_))
        (h.apart_of_cpu rfl) ?_⟩
      · rw [h0]
        exact .loadCpuId
      · simp only [callOf, hop, Option.map_some]
        rw [hcall (by omega), hcall (by omega)]
  | ends hend =>
      rw [hend, List.getElem?_eq_none le_rfl] at hinstr
      exact absurd hinstr.symm (Option.some_ne_none _)
  | inside hc hcs stage =>
      obtain rfl := Option.some.inj (hc.symm.trans hcpu)
      have hcs'' : th.rseqCs = some op := hcs'.elim (·.trans hcs) id
      have hstage := exec_stage hlt valid (h.slab _ hlt) hid stage hinstr hexec
      obtain ⟨stage', stores⟩ | ⟨hend, stack, ans, hans, happly, stores⟩ := hstage
      · refine .inl ⟨stage'.ip_lt.ne, h.stored hcpu hcpu' valid.1
          (hthread (.inside (hcpu'.trans hcpu) hcs'' stage')) stores (fun c hlt cl hcl => ?_) ?_⟩
        · split
          · next heq => rw [heq.1, heq.2, h.stack _ (heq.1 ▸ hlt) _ (heq.2 ▸ hcl)]
          · rfl
        · have hsame : callOf S th = a.calls t := by
            rw [h.calls t, callOf, callOf, hop', hop, Option.map_some, Option.map_some,
              hcall stage'.ip_lt.ne, hcall stage.ip_lt.ne]
          rw [hsame, Function.update_eq_self]
      · have hcalls := h.calls t
        rw [callOf, hop, Option.map_some, hcall stage.ip_lt.ne] at hcalls
        rw [← h.stack _ hlt _ valid.1] at happly
        rw [hans]
        refine .inr ⟨hend, _, .commit hcalls hlt valid.1 happly, h.stored hcpu hcpu' valid.1
          (hthread (.ends hend (hans ▸ rfl))) stores (fun c hlt cl hcl => ?_) ?_⟩
        · simp only [Spec.State.setCall, Spec.State.setStack, Function.update_apply]
          split
          · next hc =>
              subst hc
              simp only [Function.update_apply, true_and]
          · next hc => rw [if_neg fun heq => hc heq.1]
        · rw [callOf, hop', hop, Option.map_some, if_pos hend, hans]
          rfl

/-- Every step of the machine is one of the specification, or cannot be seen. -/
theorem step (h : Refines S s a) {e : Event ι} (hstep : Step S s e s') :
    e.visible = false ∧ Refines S s' a ∨
    e.visible = true ∧ ∃ b, Spec.Step S.ncpu S.classes S.cap a e b ∧ Refines S s' b := by
  cases hstep with
  | call hcpu hop valid => exact .inr ⟨rfl, h.call hop valid⟩
  | exec hcpu hop hinstr hexec =>
      obtain ⟨hne, h'⟩ | ⟨heq, h'⟩ := h.exec hcpu hop hinstr hexec
      · rw [if_neg hne]
        exact .inl ⟨rfl, h'⟩
      · rw [if_pos heq]
        exact .inr ⟨rfl, h'⟩
  | ret hcpu hop hip => exact .inr ⟨rfl, h.ret hop hip⟩
  | preempt hcpu resumes => exact .inl ⟨rfl, h.preempt resumes⟩
  | resume hcpu lt free => exact .inl ⟨rfl, h.resume hcpu lt free⟩

/-- A thread that keeps its CPU reaches the commit point of its call, and the others stay where
they are. -/
theorem commits (h : Refines S s a) {cpu : Nat} {op : Op} (hcpu : (s.thread t).cpu = some cpu)
    (hop : (s.thread t).op = some op) (hip : (s.thread t).ip < op.code.length) :
    ∃ tr s' b ans, Run (Step S) s tr s' ∧
      tr.filter Event.visible = [.commit t op cpu (some ans)] ∧
      Spec.Step S.ncpu S.classes S.cap a (.commit t op cpu (some ans)) b ∧ Refines S s' b ∧
      (s'.thread t).cpu = some cpu ∧ (s'.thread t).op = some op ∧
      (s'.thread t).ip = op.code.length ∧ ∀ u ≠ t, s'.thread u = s.thread u := by
  obtain ⟨n, hn⟩ : ∃ n, op.code.length - (s.thread t).ip = n := ⟨_, rfl⟩
  induction n using Nat.strong_induction_on generalizing s with
  | _ n ih =>
      have hinstr : op.code[(s.thread t).ip]? = some op.code[(s.thread t).ip] :=
        List.getElem?_eq_getElem hip
      rcases hexec : PerCpu.exec S op s.mem (s.thread t) op.code[(s.thread t).ip] with ⟨mem, th⟩
      have hstep := Step.exec hcpu hop hinstr hexec
      obtain ⟨hop', hcpu', -⟩ := exec_thread hexec
      have hself : (⟨mem, Function.update s.thread t th⟩ : State ι).thread t = th :=
        Function.update_self ..
      have hothers : ∀ u ≠ t, Function.update s.thread t th u = s.thread u := fun u hu =>
        Function.update_of_ne hu ..
      obtain ⟨hne, h'⟩ | ⟨hend, b, hspec, h'⟩ := h.exec hcpu hop hinstr hexec
      · rw [if_neg hne] at hstep
        have hnext := (exec_ip hexec).resolve_right hne
        obtain ⟨tr, s', b, ans, run, htr, hspec, h'', hcpu'', hop'', hend, hsame⟩ :=
          ih (op.code.length - th.ip) (by omega) h' (by rw [hself, hcpu', hcpu])
            (by rw [hself, hop', hop]) (by rw [hself]; omega) (by rw [hself])
        exact ⟨_, s', b, ans, .cons hstep run, htr, hspec, h'', hcpu'', hop'', hend,
          fun u hu => (hsame u hu).trans (hothers u hu)⟩
      · rw [if_pos hend] at hstep
        generalize answer S th.regs op = r at hstep hspec
        obtain ⟨ans, rfl⟩ : ∃ ans, r = some ans := by
          cases hspec with
          | commit => exact ⟨_, rfl⟩
        exact ⟨_, _, b, ans, .single hstep, rfl, hspec, h', by rw [hself, hcpu', hcpu],
          by rw [hself, hop', hop], by rw [hself, hend], hothers⟩

/-- A call that is not interrupted returns what the stack of its CPU makes of it. -/
theorem finishes (h : Refines S s a) {cpu : Nat} {op : Op} (hcpu : (s.thread t).cpu = some cpu)
    (hop : (s.thread t).op = some op) (hip : (s.thread t).ip = 0) {stack : List Nat}
    {ans : Answer} (happly : op.apply S.cap cpu (a.stack cpu op.cl) = (stack, ans)) :
    ∃ tr s' b, Run (Step S) s tr s' ∧
      tr.filter Event.visible = [.commit t op cpu (some ans), .ret t (some ans)] ∧
      Refines S s' b ∧ b.stack = (a.setStack cpu op.cl stack).stack ∧
      (s'.thread t).cpu = some cpu ∧ (s'.thread t).op = none ∧
      ∀ u ≠ t, s'.thread u = s.thread u := by
  obtain ⟨tr, s', b, ans', run, htr, hcommit, h', hcpu', hop', hend, hsame⟩ :=
    h.commits hcpu hop (by have := op.le_length_code; omega)
  obtain ⟨b', hret, h''⟩ := h'.ret hop' hend
  cases hcommit with
  | commit hcalls hlt hcl happly' =>
      cases happly.symm.trans happly'
      have hstep := Step.ret (S := S) hcpu' hop' hend
      generalize answer S (s'.thread t).regs op = r at hret hstep
      cases hret with
      | ret hcalls' =>
          simp only [Spec.State.setCall, Function.update_self, Option.some.injEq,
            Prod.mk.injEq] at hcalls'
          obtain ⟨-, rfl⟩ := hcalls'
          refine ⟨_, _, _, run.snoc hstep, ?_, h'', rfl, ?_, ?_, fun u hu => ?_⟩
          · rw [List.filter_append, htr]
            rfl
          · simpa using hcpu'
          · simp
          · simpa [hu] using hsame u hu

end Refines

namespace Slabs

variable {mem mem' : Mem} {cpu cl n : Nat} {check : Bool}

/-- The slabs of the other CPUs are as they were. -/
def Outside (S : Slabs) (cpu : Nat) (mem mem' : Mem) : Prop :=
  ∀ cpu' ≠ cpu, ∀ k < WORDS, mem' (S.word cpu' k) = mem (S.word cpu' k)

theorem Outside.trans {mem'' : Mem} (h : S.Outside cpu mem mem') (h' : S.Outside cpu mem' mem'') :
    S.Outside cpu mem mem'' :=
  fun c hc k hk => (h' c hc k hk).trans (h c hc k hk)

theorem outside_update {k v : Nat} (hk : k < WORDS) :
    S.Outside cpu mem (Function.update mem (S.word cpu k) v) :=
  fun _ hc _ hj => Function.update_of_ne (S.word_ne_of_cpu hj hk hc) ..

theorem ofWord_toWord_new (a b c d : Nat) :
    Header.ofWord (Header.new a b c d).toWord = Header.new a b c d := by
  simp only [Header.ofWord, Header.toWord, Header.new, Header.mk.injEq]
  omega

/-- All arrays of the slab are empty. -/
def Opened (S : Slabs) (mem : Mem) (cpu n : Nat) : Prop :=
  ∀ cl < n, S.header mem cpu cl =
    ⟨S.first cl, S.first cl + S.cap, S.first cl, S.first cl + S.cap⟩

theorem Opened.slabOk (h : S.Opened mem cpu S.classes) :
    SlabOk S mem cpu ∧ ∀ cl < S.classes, S.contents mem cpu cl = [] := by
  have hempty : ∀ cl < S.classes, S.contents mem cpu cl = [] := fun cl hcl => by
    rw [← List.length_eq_zero_iff, length_contents, size, h cl hcl, Nat.sub_self]
  refine ⟨⟨fun cl hcl => ?_, fun cl hcl x hx => ?_⟩, hempty⟩
  · have hhdr := h cl hcl
    constructor <;> simp [hhdr]
  · rw [hempty cl hcl] at hx
    exact absurd hx List.not_mem_nil

/-- Locking touches the headers of one slab. -/
theorem lockAll_outside (hlock : S.lockAll check cpu mem = some mem') : S.Outside cpu mem mem' := by
  have hall : ∀ l : List Nat, (∀ cl ∈ l, cl < S.classes) → ∀ m, l.foldlM (fun mem cl =>
      if check && (S.header mem cpu cl).isLocked then none
      else some (Function.update mem (S.word cpu cl) (S.header mem cpu cl).lock.toWord)) m =
        some mem' → S.Outside cpu m mem' := by
    intro l
    induction l with
    | nil =>
        rintro - m ⟨⟩
        exact fun _ _ _ _ => rfl
    | cons cl l ih =>
        intro hl m hfold
        obtain ⟨hcl, hl⟩ := List.forall_mem_cons.mp hl
        rw [List.foldlM_cons] at hfold
        obtain ⟨m', hm', hfold⟩ := Option.bind_eq_some_iff.mp hfold
        obtain ⟨-, hm'⟩ := Option.ite_none_left_eq_some.mp hm'
        cases hm'
        exact (outside_update (S.header_lt hcl)).trans (ih hl _ hfold)
  exact hall _ (fun cl hcl => List.mem_range.mp hcl) mem hlock

/-- The second loop opens one array after the other. -/
theorem openArrays_spec (cpu : Nat) (mem : Mem) (hn : n ≤ S.classes) :
    let m := (List.range n).foldl (S.openArray cpu) (mem, S.classes * 8)
    m.2 = S.first n * 8 ∧ S.Opened m.1 cpu n ∧ S.Outside cpu mem m.1 := by
  induction n with
  | zero => exact ⟨by simp [first], fun _ h => absurd h (Nat.not_lt_zero _), fun _ _ _ _ => rfl⟩
  | succ n ih =>
      obtain ⟨hused, hopened, houtside⟩ := ih (by omega)
      simp only [List.range_succ, List.foldl_append, List.foldl_cons, List.foldl_nil]
      generalize (List.range n).foldl (S.openArray cpu) (mem, S.classes * 8) = m at *
      have hend := S.first_add_le (Nat.lt_of_succ_le hn)
      have hhdr := S.header_lt (Nat.lt_of_succ_le hn)
      have haddr : S.addr + cpu * 2 ^ SHIFT + S.first n * 8 = S.word cpu (S.first n) := rfl
      have hword : S.first n * 8 / 8 = S.first n := by omega
      have hnew : Header.new (S.first n) (S.first n + S.cap) (S.first n) (S.first n + S.cap) =
          ⟨S.first n, S.first n + S.cap, S.first n, S.first n + S.cap⟩ := by
        simp only [WORDS] at hend
        simp only [Header.new, Header.mk.injEq]
        omega
      simp only [openArray, hused, haddr, hword]
      have htarget : S.Outside cpu m.1 (if S.cap ≠ 0 then
          Function.update m.1 (S.word cpu (S.first n)) (S.word cpu (S.first n)) else m.1) ∧
          ∀ cl < n, (if S.cap ≠ 0 then
            Function.update m.1 (S.word cpu (S.first n)) (S.word cpu (S.first n)) else m.1)
              (S.word cpu cl) = m.1 (S.word cpu cl) := by
        split
        · have hlt : S.first n < WORDS := by omega
          refine ⟨outside_update hlt, fun cl hcl => Function.update_of_ne ?_ ..⟩
          exact S.word_ne (S.header_lt (by omega)) hlt (S.header_ne_slot (i := 0) (by omega))
        · exact ⟨fun _ _ _ _ => rfl, fun _ _ => rfl⟩
      generalize (if S.cap ≠ 0 then
        Function.update m.1 (S.word cpu (S.first n)) (S.word cpu (S.first n)) else m.1) = m' at *
      refine ⟨?_, fun cl hcl => ?_, (houtside.trans htarget.1).trans (outside_update hhdr)⟩
      · rw [S.first_succ]
        omega
      · obtain rfl | hne := eq_or_ne cl n
        · rw [header, Function.update_self, ofWord_toWord_new, hnew]
        · rw [header, Function.update_of_ne (S.word_ne (S.header_lt (by omega)) hhdr hne),
            htarget.2 cl (by omega)]
          exact hopened cl (by omega)

theorem initCpu_spec (hinit : S.initCpu check cpu mem = some mem') :
    S.Opened mem' cpu S.classes ∧ S.Outside cpu mem mem' := by
  obtain ⟨m, hlock, hinit⟩ := Option.bind_eq_some_iff.mp hinit
  obtain ⟨-, hinit⟩ := Option.ite_none_right_eq_some.mp hinit
  cases hinit
  obtain ⟨-, hopened, houtside⟩ := openArrays_spec (S := S) cpu m le_rfl
  exact ⟨hopened, (lockAll_outside hlock).trans houtside⟩

/-- After `init` every array of every CPU is empty. -/
theorem init_spec (hinit : S.init check mem = some mem') (hcpu : cpu < S.ncpu) :
    S.Opened mem' cpu S.classes := by
  have hall : ∀ n m', (List.range n).foldlM (fun mem cpu => S.initCpu check cpu mem) mem = some m' →
      ∀ cpu < n, S.Opened m' cpu S.classes := by
    intro n
    induction n with
    | zero => exact fun _ _ _ h => absurd h (Nat.not_lt_zero _)
    | succ n ih =>
        intro m' hfold cpu hcpu
        rw [List.range_succ, List.foldlM_append] at hfold
        obtain ⟨m, hfold, hlast⟩ := Option.bind_eq_some_iff.mp hfold
        rw [List.foldlM_cons] at hlast
        obtain ⟨m'', hlast, hnil⟩ := Option.bind_eq_some_iff.mp hlast
        cases hnil
        obtain ⟨hopened, houtside⟩ := initCpu_spec hlast
        obtain rfl | hne := eq_or_ne cpu n
        · exact hopened
        · intro cl hcl
          rw [header, houtside cpu hne cl (S.header_lt hcl)]
          exact ih m hfold cpu (by omega) cl hcl
  exact hall S.ncpu mem' hinit cpu hcpu

theorem lockAll_eq_some (cpu : Nat) (mem : Mem) (hn : n ≤ S.classes)
    (unlocked : check = true → ∀ cl < S.classes, (S.header mem cpu cl).isLocked = false) :
    ∃ m, (List.range n).foldlM (fun mem cl =>
        if check && (S.header mem cpu cl).isLocked then none
        else some (Function.update mem (S.word cpu cl) (S.header mem cpu cl).lock.toWord)) mem =
          some m ∧ ∀ cl < S.classes, n ≤ cl → m (S.word cpu cl) = mem (S.word cpu cl) := by
  induction n with
  | zero => exact ⟨mem, rfl, fun _ _ _ => rfl⟩
  | succ n ih =>
      obtain ⟨m, hfold, hsame⟩ := ih (by omega)
      have hopen : (check && (S.header m cpu n).isLocked) = false := by
        cases check with
        | false => rfl
        | true =>
            rw [header, hsame n (by omega) le_rfl]
            exact unlocked rfl n (by omega)
      refine ⟨Function.update m (S.word cpu n) (S.header m cpu n).lock.toWord, ?_,
        fun cl hcl hle => ?_⟩
      · rw [List.range_succ, List.foldlM_append, hfold]
        simp only [Option.bind_eq_bind, Option.bind_some, List.foldlM_cons, hopen]
        rfl
      · rw [Function.update_of_ne (S.word_ne (S.header_lt hcl) (S.header_lt (by omega))
          (by omega)), hsame cl hcl (by omega)]

/-- `init` panics only if a header is locked. -/
theorem init_eq_some (mem : Mem) (unlocked : check = true → ∀ cpu < S.ncpu, ∀ cl < S.classes,
    (S.header mem cpu cl).isLocked = false) : ∃ m, S.init check mem = some m := by
  have hall : ∀ n ≤ S.ncpu, ∃ m,
      (List.range n).foldlM (fun mem cpu => S.initCpu check cpu mem) mem = some m ∧
      ∀ cpu, n ≤ cpu → ∀ k < WORDS, m (S.word cpu k) = mem (S.word cpu k) := by
    intro n
    induction n with
    | zero => exact fun _ => ⟨mem, rfl, fun _ _ _ _ => rfl⟩
    | succ n ih =>
        intro hn
        obtain ⟨m, hfold, hsame⟩ := ih (by omega)
        obtain ⟨m', hlock, -⟩ := lockAll_eq_some (S := S) n m le_rfl
          fun hcheck cl hcl => by
            rw [header, hsame n le_rfl cl (S.header_lt hcl)]
            exact unlocked hcheck n (by omega) cl hcl
        obtain ⟨hused, -⟩ := openArrays_spec (S := S) n m' le_rfl
        have hfits := S.fits
        have hcall : S.initCpu check n m = some
            ((List.range S.classes).foldl (S.openArray n) (m', S.classes * 8)).1 := by
          simp only [initCpu, lockAll, hlock, Option.bind_eq_bind, Option.bind_some]
          refine if_pos ?_
          rw [hused, first, Nat.add_mul, Nat.mul_assoc]
          exact hfits
        obtain ⟨-, houtside⟩ := initCpu_spec hcall
        refine ⟨_, ?_, fun cpu hcpu k hk =>
          (houtside cpu (by omega) k hk).trans (hsame cpu (by omega) k hk)⟩
        rw [List.range_succ, List.foldlM_append, hfold]
        simp only [Option.bind_eq_bind, Option.bind_some, List.foldlM_cons, hcall]
        rfl
  obtain ⟨m, hm, -⟩ := hall S.ncpu le_rfl
  exact ⟨m, hm⟩

end Slabs

section Run

variable {check : Bool} {mem mem₀ : Mem} {s : State ι} {tr : List (Event ι)}

omit [DecidableEq ι] in
theorem refines_new (hinit : S.init check mem = some mem₀) :
    Refines S (State.new mem₀ : State ι) Spec.State.new where
  slab _ hcpu := (Slabs.init_spec hinit hcpu).slabOk.1
  thread _ := ⟨fun h => absurd h.symm (Option.some_ne_none _),
    fun h => absurd h.symm (Option.some_ne_none _), fun h => absurd h.symm (Option.some_ne_none _)⟩
  apart h := absurd h.symm (Option.some_ne_none _)
  stack _ hcpu cl hcl := ((Slabs.init_spec hinit hcpu).slabOk.2 cl hcl).symm
  calls _ := rfl

theorem refines_run (hinit : S.init check mem = some mem₀)
    (run : Run (Step S) (State.new mem₀) tr s) :
    ∃ a, Run (Spec.Step S.ncpu S.classes S.cap) Spec.State.new (tr.filter Event.visible) a ∧
      Refines S s a := by
  refine run.simulate (refines_new hinit) (fun h hstep hhidden => ?_) fun h hstep hshown => ?_
  · obtain ⟨-, h'⟩ | ⟨hvisible, -⟩ := h.step hstep
    · exact h'
    · exact Bool.noConfusion (hhidden.symm.trans hvisible)
  · obtain ⟨hhidden, -⟩ | ⟨-, h'⟩ := h.step hstep
    · exact Bool.noConfusion (hhidden.symm.trans hshown)
    · exact h'

/-- Whatever the threads do, and wherever the kernel interrupts them, the calls, the commit
points and the returns of a run are those of stacks of bounded size, and the arrays in memory
are these stacks. -/
theorem arrays_linearizable (hinit : S.init check mem = some mem₀)
    (run : Run (Step S) (State.new mem₀) tr s) :
    ∃ a, Run (Spec.Step S.ncpu S.classes S.cap) Spec.State.new (tr.filter Event.visible) a ∧
      ∀ cpu < S.ncpu, ∀ cl < S.classes, S.contents s.mem cpu cl = a.stack cpu cl := by
  obtain ⟨a, hspec, h⟩ := refines_run hinit run
  exact ⟨a, hspec, fun cpu hcpu cl hcl => (h.stack cpu hcpu cl hcl).symm⟩

end Run

end UniAlloc.PerCpu
