import UniAlloc.PerCpu.Arrays

/-!
# The arrays are stacks

Seen from outside, a call of `push` or `pop` takes effect at once, at its commit point, on the
stack of the CPU it runs on there. `Spec` says so, and the machine refines it.
-/

namespace UniAlloc.PerCpu

open Transition

variable {ι : Type} [DecidableEq ι]

/-- What a call makes of the stack it meets, and what it returns. -/
def Op.apply (cap cpu : Nat) (stack : List Nat) : Op → List Nat × Answer
  | .push item _ => if stack.length < cap then (item :: stack, .pushed) else (stack, .err cpu)
  | .pop _ =>
      match stack with
      | [] => ([], .err cpu)
      | ptr :: rest => (rest, .popped ptr)

namespace Spec

/-- A stack for every CPU and every class, and the calls that have not returned, with their
answers if they have taken effect. -/
structure State (ι : Type) where
  stack : Nat → Nat → List Nat
  calls : ι → Option (Op × Option Answer)

def State.new : State ι := ⟨fun _ _ => [], fun _ => none⟩

def State.setStack (a : State ι) (cpu cl : Nat) (stack : List Nat) : State ι :=
  { a with stack := Function.update a.stack cpu (Function.update (a.stack cpu) cl stack) }

def State.setCall (a : State ι) (t : ι) (call : Option (Op × Option Answer)) : State ι :=
  { a with calls := Function.update a.calls t call }

/-- A call starts, takes effect on one of the CPUs, and returns with its answer. -/
inductive Step (ncpu classes cap : Nat) : State ι → Event ι → State ι → Prop where
  | call {a t op} : a.calls t = none →
      Step ncpu classes cap a (.call t op) (a.setCall t (some (op, none)))
  | commit {a t op cpu stack ans} : a.calls t = some (op, none) → cpu < ncpu →
      op.cl < classes → op.apply cap cpu (a.stack cpu op.cl) = (stack, ans) →
      Step ncpu classes cap a (.commit t op cpu (some ans))
        ((a.setStack cpu op.cl stack).setCall t (some (op, some ans)))
  | ret {a t op ans} : a.calls t = some (op, some ans) →
      Step ncpu classes cap a (.ret t (some ans)) (a.setCall t none)

end Spec

/-- `scratch` and `before` have been loaded. -/
structure Loaded (S : Slabs) (mem : Mem) (cpu cl : Nat) (r : Regs) : Prop where
  scratch : r.scratch = S.word cpu 0
  before : r.before = (S.header mem cpu cl).current

/-- The registers inside the sequence, on the CPU `cpu`; the names are those of the instruction
that comes next. -/
inductive Stage (S : Slabs) (mem : Mem) (cpu : Nat) : Op → Nat → Regs → Prop where
  | loadCpuId {op r} : Stage S mem cpu op 1 r
  | shl {op r} : r.scratch = cpu → Stage S mem cpu op 2 r
  | addSlabs {op r} : r.scratch = cpu * 2 ^ SHIFT → Stage S mem cpu op 3 r
  | loadCurrent {op r} : r.scratch = S.word cpu 0 → Stage S mem cpu op 4 r
  | copyBefore {op r} : r.scratch = S.word cpu 0 →
      r.current = (S.header mem cpu op.cl).current → Stage S mem cpu op 5 r
  | cmp {op r} : Loaded S mem cpu op.cl r → r.current = r.before → Stage S mem cpu op 6 r
  | jae {item cl r} : Loaded S mem cpu cl r → r.current = r.before →
      r.flags = (r.before, S.first cl + S.cap) → Stage S mem cpu (.push item cl) 7 r
  | storeItem {item cl r} : Loaded S mem cpu cl r → r.current = r.before →
      r.before < S.first cl + S.cap → Stage S mem cpu (.push item cl) 8 r
  | inc {item cl r} : Loaded S mem cpu cl r → r.current = r.before →
      r.before < S.first cl + S.cap → mem (S.word cpu r.before) = item →
      Stage S mem cpu (.push item cl) 9 r
  | storePushed {item cl r} : Loaded S mem cpu cl r → r.current = r.before + 1 →
      r.before < S.first cl + S.cap → mem (S.word cpu r.before) = item →
      Stage S mem cpu (.push item cl) 10 r
  | jbe {cl r} : Loaded S mem cpu cl r → r.current = r.before →
      r.flags = (r.before, S.first cl) → Stage S mem cpu (.pop cl) 7 r
  | loadNext {cl r} : Loaded S mem cpu cl r → r.current = r.before → S.first cl < r.before →
      Stage S mem cpu (.pop cl) 8 r
  | prefetch {cl r} : Loaded S mem cpu cl r → r.current = r.before → S.first cl < r.before →
      Stage S mem cpu (.pop cl) 9 r
  | loadResult {cl r} : Loaded S mem cpu cl r → r.current = r.before → S.first cl < r.before →
      Stage S mem cpu (.pop cl) 10 r
  | dec {cl r} : Loaded S mem cpu cl r → r.current = r.before → S.first cl < r.before →
      r.result = mem (S.word cpu (r.before - 1)) → Stage S mem cpu (.pop cl) 11 r
  | storePopped {cl r} : Loaded S mem cpu cl r → r.current + 1 = r.before →
      S.first cl < r.before → r.result = mem (S.word cpu (r.before - 1)) →
      Stage S mem cpu (.pop cl) 12 r

section Stage

variable {S : Slabs} {mem mem' : Mem} {cpu cl ip item : Nat} {op : Op} {r : Regs}

theorem Op.le_length_code (op : Op) : 11 ≤ op.code.length := by
  cases op <;> simp [Op.code]

theorem Stage.ip_pos (h : Stage S mem cpu op ip r) : 1 ≤ ip := by
  cases h <;> decide

theorem Stage.ip_lt (h : Stage S mem cpu op ip r) : ip < op.code.length := by
  have hlen := op.le_length_code
  cases h <;> first | omega | simp [Op.code]

theorem Loaded.congr (h : Loaded S mem cpu cl r)
    (same : mem' (S.word cpu cl) = mem (S.word cpu cl)) : Loaded S mem' cpu cl r := by
  refine ⟨h.scratch, ?_⟩
  rw [h.before, Slabs.header, Slabs.header, same]

/-- Only the words of one slab matter. -/
theorem Stage.congr (h : Stage S mem cpu op ip r) (hcl : op.cl < S.classes)
    (ok : S.HeaderOk mem cpu op.cl)
    (same : ∀ k < Slabs.WORDS, mem' (S.word cpu k) = mem (S.word cpu k)) :
    Stage S mem' cpu op ip r := by
  have hword := same op.cl (S.header_lt hcl)
  have hend := S.first_add_le hcl
  have hcurrent := ok.current_lt hcl
  cases h with
  | loadCpuId => exact .loadCpuId
  | shl h => exact .shl h
  | addSlabs h => exact .addSlabs h
  | loadCurrent h => exact .loadCurrent h
  | copyBefore h h' => exact .copyBefore h (by rw [h', Slabs.header, Slabs.header, hword])
  | cmp h h' => exact .cmp (h.congr hword) h'
  | jae h h' hflags => exact .jae (h.congr hword) h' hflags
  | storeItem h h' hlt => exact .storeItem (h.congr hword) h' hlt
  | inc h h' hlt hitem =>
      exact .inc (h.congr hword) h' hlt ((same _ (hlt.trans_le hend)).trans hitem)
  | storePushed h h' hlt hitem =>
      exact .storePushed (h.congr hword) h' hlt ((same _ (hlt.trans_le hend)).trans hitem)
  | jbe h h' hflags => exact .jbe (h.congr hword) h' hflags
  | loadNext h h' hlt => exact .loadNext (h.congr hword) h' hlt
  | prefetch h h' hlt => exact .prefetch (h.congr hword) h' hlt
  | loadResult h h' hlt => exact .loadResult (h.congr hword) h' hlt
  | dec h h' hlt hres =>
      have hbefore := h.before
      exact .dec (h.congr hword) h' hlt
        (hres.trans (same _ (by simp only [Op.cl] at *; omega)).symm)
  | storePopped h h' hlt hres =>
      have hbefore := h.before
      exact .storePopped (h.congr hword) h' hlt
        (hres.trans (same _ (by simp only [Op.cl] at *; omega)).symm)

end Stage

/-- The slab of a CPU is in order: no array contains a null pointer. -/
structure SlabOk (S : Slabs) (mem : Mem) (cpu : Nat) : Prop where
  header : ∀ cl < S.classes, S.HeaderOk mem cpu cl
  nonnull : ∀ cl < S.classes, ∀ x ∈ S.contents mem cpu cl, x ≠ 0

/-- The array of one class is `stack` now; nothing else has changed. -/
structure Stores (S : Slabs) (mem mem' : Mem) (cpu cl : Nat) (stack : List Nat) : Prop where
  slab : SlabOk S mem' cpu
  contents : S.contents mem' cpu cl = stack
  others : ∀ cl' < S.classes, cl' ≠ cl → S.contents mem' cpu cl' = S.contents mem cpu cl'
  outside : ∀ cpu' ≠ cpu, ∀ k < Slabs.WORDS, mem' (S.word cpu' k) = mem (S.word cpu' k)

namespace SlabOk

variable {S : Slabs} {mem : Mem} {cpu cl item n : Nat}

theorem refl (h : SlabOk S mem cpu) : Stores S mem mem cpu cl (S.contents mem cpu cl) :=
  ⟨h, rfl, fun _ _ _ => rfl, fun _ _ _ _ => rfl⟩

/-- The store of `push` into the first word that is not used. -/
theorem storeItem (h : SlabOk S mem cpu) (item : Nat) (hcl : cl < S.classes)
    (hn : n = (S.header mem cpu cl).current) (hlt : n < S.first cl + S.cap) :
    Stores S mem (Function.update mem (S.word cpu n) item) cpu cl (S.contents mem cpu cl) ∧
      (S.header (Function.update mem (S.word cpu n) item) cpu cl).current = n := by
  have hnlt : n < Slabs.WORDS := hlt.trans_le (S.first_add_le hcl)
  obtain ⟨i, hi, hin⟩ : ∃ i < S.cap, n = S.first cl + i := by
    have := (h.header cl hcl).le
    exact ⟨n - S.first cl, by omega, by omega⟩
  have hheader : ∀ cl' < S.classes, Function.update mem (S.word cpu n) item (S.word cpu cl') =
      mem (S.word cpu cl') := fun cl' hcl' =>
    Function.update_of_ne (S.word_ne (S.header_lt hcl') hnlt (hin ▸ S.header_ne_slot hcl')) ..
  have hsize : ∀ cl' < S.classes, S.size (Function.update mem (S.word cpu n) item) cpu cl' =
      S.size mem cpu cl' := fun cl' hcl' => by
    rw [Slabs.size, Slabs.size, Slabs.header, Slabs.header, hheader cl' hcl']
  have hcontents : ∀ cl' < S.classes,
      S.contents (Function.update mem (S.word cpu n) item) cpu cl' = S.contents mem cpu cl' := by
    intro cl' hcl'
    refine Slabs.contents_congr (hsize cl' hcl') fun j hj => Function.update_of_ne ?_ ..
    have hjcap := hj.trans_le (h.header cl' hcl').size_le
    refine S.word_ne (S.slot_lt hcl' hjcap) hnlt fun heq => ?_
    obtain ⟨rfl, rfl⟩ := S.slot_inj hjcap hi (heq.trans hin)
    have := (h.header cl' hcl').current_eq
    omega
  refine ⟨⟨⟨fun cl' hcl' => (h.header cl' hcl').congr (hheader cl' hcl'), fun cl' hcl' x hx => ?_⟩,
    hcontents cl hcl, fun cl' hcl' _ => hcontents cl' hcl', fun cpu' hne k hk => ?_⟩, ?_⟩
  · exact h.nonnull cl' hcl' x (hcontents cl' hcl' ▸ hx)
  · exact Function.update_of_ne (S.word_ne_of_cpu hk hnlt hne) ..
  · rw [Slabs.header, hheader cl hcl]
    exact hn.symm

/-- The store of `current` changes one array. -/
theorem setCurrent (h : SlabOk S mem cpu) (hcl : cl < S.classes) (hle : S.first cl ≤ n)
    (hle' : n ≤ S.first cl + S.cap)
    (nonnull : ∀ x ∈ S.contents (PerCpu.setCurrent mem (S.word cpu cl) n) cpu cl, x ≠ 0) :
    Stores S mem (PerCpu.setCurrent mem (S.word cpu cl) n) cpu cl
      (S.contents (PerCpu.setCurrent mem (S.word cpu cl) n) cpu cl) := by
  have hheader : ∀ cl' < S.classes, cl' ≠ cl →
      PerCpu.setCurrent mem (S.word cpu cl) n (S.word cpu cl') = mem (S.word cpu cl') :=
    fun cl' hcl' hne =>
      Slabs.setCurrent_of_ne (S.word_ne (S.header_lt hcl') (S.header_lt hcl) hne)
  have hcontents : ∀ cl' < S.classes, cl' ≠ cl →
      S.contents (PerCpu.setCurrent mem (S.word cpu cl) n) cpu cl' = S.contents mem cpu cl' := by
    intro cl' hcl' hne
    refine Slabs.contents_congr ?_ fun j hj => Slabs.setCurrent_of_ne ?_
    · rw [Slabs.size, Slabs.size, Slabs.header, Slabs.header, hheader cl' hcl' hne]
    · exact S.word_ne (S.slot_lt hcl' (hj.trans_le (h.header cl' hcl').size_le)) (S.header_lt hcl)
        (S.header_ne_slot hcl).symm
  refine ⟨⟨fun cl' hcl' => ?_, fun cl' hcl' x hx => ?_⟩, rfl, hcontents, fun cpu' hne k hk => ?_⟩
  · obtain rfl | hne := eq_or_ne cl' cl
    · exact ((h.header cl' hcl').setCurrent hcl' hle hle').1
    · exact (h.header cl' hcl').congr (hheader cl' hcl' hne)
  · obtain rfl | hne := eq_or_ne cl' cl
    · exact nonnull x hx
    · exact h.nonnull cl' hcl' x (hcontents cl' hcl' hne ▸ hx)
  · exact Slabs.setCurrent_of_ne (S.word_ne_of_cpu hk (S.header_lt hcl) hne)

/-- The commit of `push`. -/
theorem push (h : SlabOk S mem cpu) (hcl : cl < S.classes)
    (hn : n = (S.header mem cpu cl).current) (hlt : n < S.first cl + S.cap)
    (hitem : mem (S.word cpu n) = item) (hne : item ≠ 0) :
    Stores S mem (PerCpu.setCurrent mem (S.word cpu cl) (n + 1)) cpu cl
      (item :: S.contents mem cpu cl) := by
  have ok := h.header cl hcl
  have hcur := ok.current_eq
  have hle := ok.le
  obtain ⟨-, hsize⟩ := ok.setCurrent (v := n + 1) hcl (by omega) (by omega)
  have hkeep : ∀ i ≤ S.size mem cpu cl, i < S.cap →
      PerCpu.setCurrent mem (S.word cpu cl) (n + 1) (S.word cpu (S.first cl + i)) =
        mem (S.word cpu (S.first cl + i)) := fun i _ hi =>
    Slabs.setCurrent_of_ne (S.word_ne (S.slot_lt hcl hi) (S.header_lt hcl)
      (S.header_ne_slot hcl).symm)
  have hcontents : S.contents (PerCpu.setCurrent mem (S.word cpu cl) (n + 1)) cpu cl =
      item :: S.contents mem cpu cl := by
    rw [Slabs.contents_succ (by omega) fun i hi => hkeep i hi.le (hi.trans_le ok.size_le),
      hkeep _ le_rfl (by omega), ← hcur, ← hn, hitem]
  have hstores := h.setCurrent (n := n + 1) hcl (by omega) (by omega) (by
    rw [hcontents]
    exact List.forall_mem_cons.mpr ⟨hne, h.nonnull cl hcl⟩)
  rwa [hcontents] at hstores

/-- The commit of `pop`. -/
theorem pop (h : SlabOk S mem cpu) (hcl : cl < S.classes)
    (hn : n + 1 = (S.header mem cpu cl).current) (hlt : S.first cl ≤ n) :
    ∃ rest, S.contents mem cpu cl = mem (S.word cpu n) :: rest ∧ mem (S.word cpu n) ≠ 0 ∧
      Stores S mem (PerCpu.setCurrent mem (S.word cpu cl) n) cpu cl rest := by
  have ok := h.header cl hcl
  have hcur := ok.current_eq
  have hle := ok.le_end
  obtain ⟨-, hsize⟩ := ok.setCurrent (v := n) hcl hlt (by omega)
  have hlast : S.first cl + S.size (PerCpu.setCurrent mem (S.word cpu cl) n) cpu cl = n := by
    omega
  have hcontents : S.contents mem cpu cl = mem (S.word cpu
      (S.first cl + S.size (PerCpu.setCurrent mem (S.word cpu cl) n) cpu cl)) ::
      S.contents (PerCpu.setCurrent mem (S.word cpu cl) n) cpu cl :=
    Slabs.contents_succ (by omega) fun i hi =>
      (Slabs.setCurrent_of_ne (S.word_ne (S.slot_lt hcl (by omega)) (S.header_lt hcl)
        (S.header_ne_slot hcl).symm)).symm
  rw [hlast] at hcontents
  have hnonnull := h.nonnull cl hcl
  rw [hcontents] at hnonnull
  obtain ⟨hne, hrest⟩ := List.forall_mem_cons.mp hnonnull
  exact ⟨_, hcontents, hne, h.setCurrent hcl hlt (by omega) hrest⟩

end SlabOk

section Exec

variable {S : Slabs} {mem mem' : Mem} {cpu : Nat} {op : Op} {th th' : Thread} {instr : Instr}

/-- An instruction changes registers and `rseq_cs` of its thread at most. -/
theorem exec_thread (hexec : exec S op mem th instr = (mem', th')) :
    th'.op = th.op ∧ th'.cpu = th.cpu ∧ th'.cpuId = th.cpuId ∧
      (th'.rseqCs = th.rseqCs ∨ th'.rseqCs = some op) := by
  cases instr with
  | jae =>
      rw [exec] at hexec
      split at hexec <;> cases hexec <;> exact ⟨rfl, rfl, rfl, .inl rfl⟩
  | jbe =>
      rw [exec] at hexec
      split at hexec <;> cases hexec <;> exact ⟨rfl, rfl, rfl, .inl rfl⟩
  | setCs => cases hexec; exact ⟨rfl, rfl, rfl, .inr rfl⟩
  | _ => cases hexec; exact ⟨rfl, rfl, rfl, .inl rfl⟩

/-- An instruction goes on to the next one or jumps to the commit point. -/
theorem exec_ip (hexec : exec S op mem th instr = (mem', th')) :
    th'.ip = th.ip + 1 ∨ th'.ip = op.code.length := by
  cases instr with
  | jae =>
      rw [exec] at hexec
      split at hexec
      · cases hexec
        exact .inr rfl
      · cases hexec
        exact .inl rfl
  | jbe =>
      rw [exec] at hexec
      split at hexec
      · cases hexec
        exact .inr rfl
      · cases hexec
        exact .inl rfl
  | _ =>
      cases hexec
      exact .inl rfl

theorem word_zero_add (k : Nat) : S.word cpu 0 + k * 8 = S.word cpu k := by
  simp [Slabs.word]

theorem scratch_cpu : (S.word cpu 0 - S.addr) / 2 ^ SHIFT = cpu := by
  simp only [Slabs.word, SHIFT]
  omega

/-- Where an instruction of the sequence leads: to the next stage, with all arrays as they are, or
to the commit point, where it does what the call is for. -/
def Leads (S : Slabs) (mem mem' : Mem) (cpu : Nat) (op : Op) (th : Thread) : Prop :=
  Stage S mem' cpu op th.ip th.regs ∧ Stores S mem mem' cpu op.cl (S.contents mem cpu op.cl) ∨
    th.ip = op.code.length ∧ ∃ stack ans, answer S th.regs op = some ans ∧
      op.apply S.cap cpu (S.contents mem cpu op.cl) = (stack, ans) ∧
      Stores S mem mem' cpu op.cl stack

/-- Where only registers change. -/
theorem Leads.next (slab : SlabOk S mem cpu) (stage : Stage S mem cpu op th.ip th.regs) :
    Leads S mem mem cpu op th := .inl ⟨stage, slab.refl⟩

/-- The slab of a CPU lies in the address space. -/
theorem Slabs.slab_le (hcpu : cpu < S.ncpu) :
    S.addr + cpu * 2 ^ SHIFT + 2 ^ SHIFT ≤ 2 ^ 64 ∧ cpu < 2 ^ 16 := by
  have hmul : cpu * 2 ^ SHIFT + 2 ^ SHIFT ≤ S.ncpu * 2 ^ SHIFT := by
    rw [← Nat.succ_mul]
    exact Nat.mul_le_mul_right _ hcpu
  exact ⟨by have := S.bound; omega, hcpu.trans_le S.ncpu_le⟩

/-- The instructions that load the address of the slab and `current`. -/
theorem exec_load (hcpu : cpu < S.ncpu) (slab : SlabOk S mem cpu) (hid : th.cpuId = cpu)
    (stage : Stage S mem cpu op th.ip th.regs) (hip : th.ip < 6)
    (hinstr : op.code[th.ip]? = some instr) (hexec : exec S op mem th instr = (mem', th')) :
    Leads S mem mem' cpu op th' := by
  obtain ⟨hbound, hlt⟩ := Slabs.slab_le hcpu
  simp only [SHIFT] at hbound
  generalize heq : th.ip = ip at stage hinstr hip
  cases stage with
  | loadCpuId =>
      obtain rfl : instr = .loadCpuId := by cases op <;> exact (Option.some.inj hinstr).symm
      cases hexec
      refine .next slab ?_
      rw [heq]
      exact .shl (by simp only [hid]; omega)
  | shl h =>
      obtain rfl : instr = .shl := by cases op <;> exact (Option.some.inj hinstr).symm
      cases hexec
      refine .next slab ?_
      rw [heq]
      exact .addSlabs (by simp only [h, SHIFT]; omega)
  | addSlabs h =>
      obtain rfl : instr = .addSlabs := by cases op <;> exact (Option.some.inj hinstr).symm
      cases hexec
      refine .next slab ?_
      rw [heq]
      exact .loadCurrent (by simp only [h, SHIFT, Slabs.word]; omega)
  | loadCurrent h =>
      obtain rfl : instr = .loadCurrent := by cases op <;> exact (Option.some.inj hinstr).symm
      cases hexec
      refine .next slab ?_
      rw [heq]
      exact .copyBefore h (by
        simp only [h, word_zero_add, Slabs.half_current]
        rfl)
  | copyBefore h hload =>
      obtain rfl : instr = .copyBefore := by cases op <;> exact (Option.some.inj hinstr).symm
      cases hexec
      refine .next slab ?_
      rw [heq]
      exact .cmp ⟨h, hload⟩ rfl
  | _ => omega

/-- `push` compares `current` with the end of the array, `pop` with its begin. -/
theorem exec_cmp (slab : SlabOk S mem cpu) (hcl : op.cl < S.classes) (hip : th.ip = 6)
    (h : Loaded S mem cpu op.cl th.regs) (hsame : th.regs.current = th.regs.before)
    (hinstr : op.code[6]? = some instr) (hexec : exec S op mem th instr = (mem', th')) :
    Leads S mem mem' cpu op th' := by
  have ok := slab.header op.cl hcl
  have hlt := ok.current_lt hcl
  have hcurrent : th.regs.current % 2 ^ 16 = th.regs.before := by
    simp only [Slabs.WORDS] at hlt
    rw [hsame, h.before]
    omega
  cases op with
  | push item cl =>
      obtain rfl := Option.some.inj hinstr
      cases hexec
      refine .next slab ?_
      rw [hip]
      refine .jae ⟨h.scratch, h.before⟩ hsame ?_
      simp only [hcurrent, h.scratch, word_zero_add, Slabs.half_end, Prod.mk.injEq, true_and]
      exact ok.end
  | pop cl =>
      obtain rfl := Option.some.inj hinstr
      cases hexec
      refine .next slab ?_
      rw [hip]
      refine .jbe ⟨h.scratch, h.before⟩ hsame ?_
      simp only [hcurrent, h.scratch, word_zero_add, Slabs.half_begin, Prod.mk.injEq, true_and]
      exact ok.begin

section Push

variable {item cl : Nat}

/-- `push` gives up if the array is full. -/
theorem exec_jae (slab : SlabOk S mem cpu) (hcl : cl < S.classes) (hip : th.ip = 7)
    (h : Loaded S mem cpu cl th.regs) (hsame : th.regs.current = th.regs.before)
    (hflags : th.regs.flags = (th.regs.before, S.first cl + S.cap))
    (hexec : exec S (.push item cl) mem th .jae = (mem', th')) :
    Leads S mem mem' cpu (.push item cl) th' := by
  have hcur := (slab.header cl hcl).current_eq
  have hbefore := h.before
  simp only [exec, hflags] at hexec
  split at hexec
  · next hfull =>
      cases hexec
      refine .inr ⟨rfl, S.contents mem cpu cl, .err cpu, ?_, ?_, slab.refl⟩
      · rw [answer, if_neg (by simp only [hsame]; omega), h.scratch, scratch_cpu]
      · exact if_neg (by simp only [Slabs.length_contents, Op.cl]; omega)
  · next hroom =>
      cases hexec
      refine .next slab ?_
      rw [hip]
      exact .storeItem h hsame (not_le.mp hroom)

theorem exec_storeItem (slab : SlabOk S mem cpu) (hcl : cl < S.classes) (hip : th.ip = 8)
    (h : Loaded S mem cpu cl th.regs) (hsame : th.regs.current = th.regs.before)
    (hroom : th.regs.before < S.first cl + S.cap)
    (hexec : exec S (.push item cl) mem th .storeItem = (mem', th')) :
    Leads S mem mem' cpu (.push item cl) th' := by
  obtain ⟨hstores, hheader⟩ := slab.storeItem item hcl h.before hroom
  cases hexec
  rw [h.scratch, hsame, word_zero_add]
  refine .inl ⟨?_, hstores⟩
  rw [hip]
  exact .inc ⟨h.scratch, hheader.symm⟩ hsame hroom (Function.update_self ..)

theorem exec_inc (slab : SlabOk S mem cpu) (hcl : cl < S.classes) (hip : th.ip = 9)
    (h : Loaded S mem cpu cl th.regs) (hsame : th.regs.current = th.regs.before)
    (hroom : th.regs.before < S.first cl + S.cap)
    (hstored : mem (S.word cpu th.regs.before) = item)
    (hexec : exec S (.push item cl) mem th .inc = (mem', th')) :
    Leads S mem mem' cpu (.push item cl) th' := by
  have hend := S.first_add_le hcl
  simp only [Slabs.WORDS] at hend
  cases hexec
  refine .next slab ?_
  rw [hip]
  exact .storePushed ⟨h.scratch, h.before⟩ (by simp only [hsame]; omega) hroom hstored

/-- The commit point of `push`. -/
theorem exec_storePushed (slab : SlabOk S mem cpu) (hcl : cl < S.classes) (hitem : item ≠ 0)
    (hip : th.ip = 10) (h : Loaded S mem cpu cl th.regs)
    (hnext : th.regs.current = th.regs.before + 1) (hroom : th.regs.before < S.first cl + S.cap)
    (hstored : mem (S.word cpu th.regs.before) = item)
    (hexec : exec S (.push item cl) mem th .storeCurrent = (mem', th')) :
    Leads S mem mem' cpu (.push item cl) th' := by
  have hcur := (slab.header cl hcl).current_eq
  have hbefore := h.before
  cases hexec
  refine .inr ⟨by rw [hip]; rfl, item :: S.contents mem cpu cl, .pushed, if_pos hnext, ?_, ?_⟩
  · exact if_pos (by simp only [Slabs.length_contents, Op.cl]; omega)
  · rw [h.scratch, hnext, word_zero_add]
    exact slab.push hcl h.before hroom hstored hitem

end Push

section Pop

variable {cl : Nat}

/-- `pop` gives up if the array is empty. -/
theorem exec_jbe (slab : SlabOk S mem cpu) (hcl : cl < S.classes) (hip : th.ip = 7)
    (h : Loaded S mem cpu cl th.regs) (hsame : th.regs.current = th.regs.before)
    (hflags : th.regs.flags = (th.regs.before, S.first cl))
    (hexec : exec S (.pop cl) mem th .jbe = (mem', th')) : Leads S mem mem' cpu (.pop cl) th' := by
  have hcur := (slab.header cl hcl).current_eq
  have hbefore := h.before
  simp only [exec, hflags] at hexec
  split at hexec
  · next hempty =>
      cases hexec
      have hnil : S.contents mem cpu cl = [] := by
        rw [← List.length_eq_zero_iff, Slabs.length_contents]
        omega
      refine .inr ⟨rfl, [], .err cpu, ?_, ?_, hnil ▸ slab.refl⟩
      · rw [answer, if_pos (by simp only [hsame]; omega), h.scratch, scratch_cpu]
      · simp only [Op.cl, hnil]
        rfl
  · next hsome =>
      cases hexec
      refine .next slab ?_
      rw [hip]
      exact .loadNext h hsame (not_le.mp hsome)

theorem exec_loadResult (slab : SlabOk S mem cpu) (hip : th.ip = 10)
    (h : Loaded S mem cpu cl th.regs) (hsame : th.regs.current = th.regs.before)
    (hsome : S.first cl < th.regs.before)
    (hexec : exec S (.pop cl) mem th .loadResult = (mem', th')) :
    Leads S mem mem' cpu (.pop cl) th' := by
  cases hexec
  refine .next slab ?_
  rw [hip]
  refine .dec ⟨h.scratch, h.before⟩ hsame hsome (congrArg mem ?_)
  simp only [h.scratch, hsame, Slabs.word]
  omega

theorem exec_dec (slab : SlabOk S mem cpu) (hip : th.ip = 11)
    (h : Loaded S mem cpu cl th.regs) (hsame : th.regs.current = th.regs.before)
    (hsome : S.first cl < th.regs.before)
    (hresult : th.regs.result = mem (S.word cpu (th.regs.before - 1)))
    (hexec : exec S (.pop cl) mem th .dec = (mem', th')) : Leads S mem mem' cpu (.pop cl) th' := by
  have hbelow : below th.regs.current + 1 = th.regs.before := by
    rw [below, if_neg (by omega)]
    omega
  cases hexec
  refine .next slab ?_
  rw [hip]
  exact .storePopped ⟨h.scratch, h.before⟩ hbelow hsome hresult

/-- The commit point of `pop`. -/
theorem exec_storePopped (slab : SlabOk S mem cpu) (hcl : cl < S.classes) (hip : th.ip = 12)
    (h : Loaded S mem cpu cl th.regs) (hnext : th.regs.current + 1 = th.regs.before)
    (hsome : S.first cl < th.regs.before)
    (hresult : th.regs.result = mem (S.word cpu (th.regs.before - 1)))
    (hexec : exec S (.pop cl) mem th .storeCurrent = (mem', th')) :
    Leads S mem mem' cpu (.pop cl) th' := by
  have hcurrent : th.regs.before - 1 = th.regs.current := by omega
  obtain ⟨rest, hcontents, hne, hstores⟩ :=
    slab.pop hcl (hnext.trans h.before) (n := th.regs.current) (by omega)
  rw [hcurrent] at hresult
  cases hexec
  refine .inr ⟨by rw [hip]; rfl, rest, .popped th.regs.result, ?_, ?_, ?_⟩
  · rw [answer, if_neg (not_not_intro hnext), if_neg (hresult ▸ hne)]
  · simp only [Op.cl]
    rw [hcontents, hresult]
    rfl
  · rw [h.scratch, word_zero_add]
    exact hstores

end Pop

/-- Every instruction of the sequence does its part. -/
theorem exec_stage (hcpu : cpu < S.ncpu) (valid : op.Valid S) (slab : SlabOk S mem cpu)
    (hid : th.cpuId = cpu) (stage : Stage S mem cpu op th.ip th.regs)
    (hinstr : op.code[th.ip]? = some instr) (hexec : exec S op mem th instr = (mem', th')) :
    Leads S mem mem' cpu op th' := by
  obtain ⟨hcl, hitem⟩ := valid
  obtain hload | hload := Nat.lt_or_ge th.ip 6
  · exact exec_load hcpu slab hid stage hload hinstr hexec
  generalize hip : th.ip = ip at stage hinstr hload
  cases stage with
  | cmp h hsame => exact exec_cmp slab hcl hip h hsame hinstr hexec
  | jae h hsame hflags =>
      obtain rfl := Option.some.inj hinstr
      exact exec_jae slab hcl hip h hsame hflags hexec
  | storeItem h hsame hroom =>
      obtain rfl := Option.some.inj hinstr
      exact exec_storeItem slab hcl hip h hsame hroom hexec
  | inc h hsame hroom hstored =>
      obtain rfl := Option.some.inj hinstr
      exact exec_inc slab hcl hip h hsame hroom hstored hexec
  | storePushed h hnext hroom hstored =>
      obtain rfl := Option.some.inj hinstr
      exact exec_storePushed slab hcl (hitem _ _ rfl) hip h hnext hroom hstored hexec
  | jbe h hsame hflags =>
      obtain rfl := Option.some.inj hinstr
      exact exec_jbe slab hcl hip h hsame hflags hexec
  | loadNext h hsame hsome =>
      obtain rfl := Option.some.inj hinstr
      cases hexec
      refine .next slab ?_
      rw [hip]
      exact .prefetch ⟨h.scratch, h.before⟩ hsame hsome
  | prefetch h hsame hsome =>
      obtain rfl := Option.some.inj hinstr
      cases hexec
      refine .next slab ?_
      rw [hip]
      exact .loadResult h hsame hsome
  | loadResult h hsame hsome =>
      obtain rfl := Option.some.inj hinstr
      exact exec_loadResult slab hip h hsame hsome hexec
  | dec h hsame hsome hresult =>
      obtain rfl := Option.some.inj hinstr
      exact exec_dec slab hip h hsame hsome hresult hexec
  | storePopped h hnext hsome hresult =>
      obtain rfl := Option.some.inj hinstr
      exact exec_storePopped slab hcl hip h hnext hsome hresult hexec
  | _ => omega

end Exec

end UniAlloc.PerCpu
