import UniAlloc.Mpmc.Invariant

/-!
# Preservation of the lap invariant

The proof separates the thread that moves from all others. A thread that is not
about to claim a position depends on one cell only, the cell of its position,
and the owner of a position is unique; so an action of the owner leaves what the
other threads rely on as it was (`SameAt`). Each action then has a lemma of its
own, and `inv_step` puts them together along the cases of `act`.
-/

namespace UniAlloc.Mpmc

open MpMcQueue Transition

variable {T : Type} {k t u p pos E D : Nat} {tr tr' : List (Nat × Event T)}
variable {q q' : MpMcQueue T} {s : State T} {g g' : Ghost} {pc pc' : Pc T} {e : Event T}

/-- The position whose cell a thread relies on. An exchange about to run relies
on its cell only while its position is the current one. -/
def Pc.Uses (E D : Nat) (pc : Pc T) (p : Nat) : Prop :=
  match pc with
  | .enqueueCas _ pos => pos = p ∧ p = E
  | .dequeueCas pos => pos = p ∧ p = D
  | .enqueueWrite _ pos => pos = p
  | .enqueueStore pos => pos = p
  | .dequeueRead pos => pos = p
  | .dequeueStore pos _ => pos = p
  | _ => False

/-- Nothing a thread may rely on at position `p` has changed. -/
structure SameAt (k : Nat) (tr tr' : List (Nat × Event T)) (q q' : MpMcQueue T) (g g' : Ghost)
    (p : Nat) : Prop where
  lap : g'.lap (p % 2 ^ k) = g.lap (p % 2 ^ k)
  pub : g'.pub (p % 2 ^ k) = g.pub (p % 2 ^ k)
  data : (q'.buffer (p % 2 ^ k)).data = (q.buffer (p % 2 ^ k)).data
  item : p < (enqueueClaims tr).length → itemAt tr' p = itemAt tr p
  written : Written tr' p → Written tr p
  returned : p ∈ (returned tr').map Prod.fst → p ∈ (returned tr).map Prod.fst
  read : Read tr p → Read tr' p

theorem ThreadOk.frame (h : ThreadOk k tr q g pc)
    (hle : (dequeueClaims tr).length ≤ (enqueueClaims tr).length)
    (hE : (enqueueClaims tr).length ≤ (enqueueClaims tr').length)
    (hD : (dequeueClaims tr).length ≤ (dequeueClaims tr').length)
    (same : ∀ p, pc.Uses (enqueueClaims tr').length (dequeueClaims tr').length p →
      SameAt k tr tr' q q' g g' p) : ThreadOk k tr' q' g' pc := by
  cases pc with
  | idle => trivial
  | dequeueLoad => trivial
  | enqueueLoad => trivial
  | dequeueSeq pos => exact Nat.le_trans h hD
  | enqueueSeq item pos => exact Nat.le_trans h hE
  | dequeueCas pos =>
      refine ⟨h.1.trans hD, fun heq => ?_⟩
      have st := same pos ⟨rfl, heq⟩
      rw [st.lap, st.pub]
      exact h.2 (le_antisymm h.1 (heq ▸ hD))
  | enqueueCas item pos =>
      refine ⟨h.1.trans hE, fun heq => ?_⟩
      have st := same pos ⟨rfl, heq⟩
      rw [st.lap, st.pub]
      exact h.2 (le_antisymm h.1 (heq ▸ hE))
  | dequeueRead pos =>
      obtain ⟨hlt, hlap, hpub, hret⟩ := h
      have st := same pos rfl
      exact ⟨hlt.trans_le hD, st.lap.trans hlap, st.pub.trans hpub, fun hm => hret (st.returned hm)⟩
  | dequeueStore pos data =>
      obtain ⟨hlt, hlap, hpub, hret, hread, hdata⟩ := h
      have st := same pos rfl
      exact ⟨hlt.trans_le hD, st.lap.trans hlap, st.pub.trans hpub,
        fun hm => hret (st.returned hm), st.read hread,
        hdata.trans (st.item (hlt.trans_le hle)).symm⟩
  | enqueueWrite item pos =>
      obtain ⟨hlt, hlap, hpub, hitem, hwr⟩ := h
      have st := same pos rfl
      exact ⟨hlt.trans_le hE, st.lap.trans hlap, st.pub.trans hpub, (st.item hlt).trans hitem,
        fun hm => hwr (st.written hm)⟩
  | enqueueStore pos =>
      obtain ⟨hlt, hlap, hpub, hdata⟩ := h
      have st := same pos rfl
      exact ⟨hlt.trans_le hE, st.lap.trans hlap, st.pub.trans hpub,
        st.data.trans (hdata.trans (st.item hlt).symm)⟩

/-- A thread that relies on a position finds its cell serving that position. -/
theorem ThreadOk.lap_of_uses (h : ThreadOk k tr q g pc)
    (hu : pc.Uses (enqueueClaims tr).length (dequeueClaims tr).length p) :
    g.lap (p % 2 ^ k) = p := by
  cases pc <;> simp only [Pc.Uses] at hu
  case dequeueCas => obtain ⟨rfl, heq⟩ := hu; exact (h.2 heq).1
  case enqueueCas => obtain ⟨rfl, heq⟩ := hu; exact (h.2 heq).1
  all_goals subst hu; exact h.2.1

theorem ThreadOk.of_claims (h : ThreadOk k tr q g pc) (hc : pc.claims = some pos) :
    pos < (enqueueClaims tr).length ∧ g.lap (pos % 2 ^ k) = pos ∧
      g.pub (pos % 2 ^ k) = false := by
  cases pc <;> simp only [Pc.claims, Option.some.injEq, reduceCtorEq] at hc
  all_goals subst hc; exact ⟨h.1, h.2.1, h.2.2.1⟩

theorem ThreadOk.of_takes (h : ThreadOk k tr q g pc) (hc : pc.takes = some pos) :
    pos < (dequeueClaims tr).length ∧ g.lap (pos % 2 ^ k) = pos ∧
      g.pub (pos % 2 ^ k) = true := by
  cases pc <;> simp only [Pc.takes, Option.some.injEq, reduceCtorEq] at hc
  all_goals subst hc; exact ⟨h.1, h.2.1, h.2.2.1⟩

/-- The cell of a position being enqueued is relied on by its owner alone. -/
theorem Inv.other_of_claims (inv : Inv k tr s g) (ht : (s.pc t).claims = some pos) (hne : u ≠ t)
    (hu : (s.pc u).Uses (enqueueClaims tr).length (dequeueClaims tr).length p) :
    p % 2 ^ k ≠ pos % 2 ^ k := by
  intro heq
  obtain ⟨hlt, hlap, hpub⟩ := (inv.thread t).of_claims ht
  have hother := inv.thread u
  have hp := hother.lap_of_uses hu
  rw [heq, hlap] at hp
  subst hp
  cases hpc : s.pc u <;> rw [hpc] at hother hu <;> simp only [Pc.Uses] at hu
  case enqueueCas => omega
  case dequeueCas => obtain ⟨rfl, hD⟩ := hu; simpa [hpub] using (hother.2 hD).2
  case enqueueWrite => exact hne (inv.claims_unique u t _ (by rw [hpc, Pc.claims, hu]) ht)
  case enqueueStore => exact hne (inv.claims_unique u t _ (by rw [hpc, Pc.claims, hu]) ht)
  case dequeueRead => subst hu; simp [ThreadOk, hpub] at hother
  case dequeueStore => subst hu; simp [ThreadOk, hpub] at hother

/-- The cell of a position being dequeued is relied on by its owner alone. -/
theorem Inv.other_of_takes (inv : Inv k tr s g) (ht : (s.pc t).takes = some pos) (hne : u ≠ t)
    (hu : (s.pc u).Uses (enqueueClaims tr).length (dequeueClaims tr).length p) :
    p % 2 ^ k ≠ pos % 2 ^ k := by
  intro heq
  obtain ⟨hlt, hlap, hpub⟩ := (inv.thread t).of_takes ht
  have hother := inv.thread u
  have hp := hother.lap_of_uses hu
  rw [heq, hlap] at hp
  subst hp
  cases hpc : s.pc u <;> rw [hpc] at hother hu <;> simp only [Pc.Uses] at hu
  case dequeueCas => omega
  case enqueueCas => obtain ⟨rfl, hE⟩ := hu; simpa [hpub] using (hother.2 hE).2
  case dequeueRead => exact hne (inv.takes_unique u t _ (by rw [hpc, Pc.takes, hu]) ht)
  case dequeueStore => exact hne (inv.takes_unique u t _ (by rw [hpc, Pc.takes, hu]) ht)
  case enqueueWrite => subst hu; simp [ThreadOk, hpub] at hother
  case enqueueStore => subst hu; simp [ThreadOk, hpub] at hother

/-- Ownership stays unique when the moving thread owns no more than before. -/
theorem unique_update {own : Pc T → Option Nat} {f : Nat → Pc T}
    (h : ∀ t u p, own (f t) = some p → own (f u) = some p → t = u)
    (hown : ∀ p, own pc' = some p → own (f t) = some p) (v u p : Nat)
    (hv : own (Function.update f t pc' v) = some p)
    (hu : own (Function.update f t pc' u) = some p) : v = u := by
  have back : ∀ w, own (Function.update f t pc' w) = some p → own (f w) = some p := by
    intro w hw
    by_cases hwt : w = t
    · subst hwt
      exact hown p (by simpa using hw)
    · simpa [hwt] using hw
  exact h v u p (back v hv) (back u hu)

/-- The rule for every action except the two claims: no position is claimed, and
what the other threads rely on is unchanged. -/
theorem Inv.of_noclaim (inv : Inv k tr s g) (hec : e.enqueueClaim? = none)
    (hdc : e.dequeueClaim? = none) (hqE : q'.enqueuePos = s.queue.enqueuePos)
    (hqD : q'.dequeuePos = s.queue.dequeuePos)
    (cell : ∀ i, i < 2 ^ k → CellOk k (tr ++ [(t, e)]) q' g' i)
    (self : ThreadOk k (tr ++ [(t, e)]) q' g' pc')
    (others : ∀ u, u ≠ t → ∀ p,
      (s.pc u).Uses (enqueueClaims tr).length (dequeueClaims tr).length p →
      SameAt k tr (tr ++ [(t, e)]) s.queue q' g g' p)
    (hclaims : ∀ p, pc'.claims = some p → (s.pc t).claims = some p)
    (htakes : ∀ p, pc'.takes = some p → (s.pc t).takes = some p)
    (hret : ∀ x, e.returned? = some x →
      (x.1 < (dequeueClaims tr).length ∧ x.2 = itemAt tr x.1) ∧ x.1 ∉ (returned tr).map Prod.fst)
    (hwr : ∀ p, e = .write p → p < (enqueueClaims tr).length)
    (hok : ∀ p, e = .enqueueOk p → p < (enqueueClaims tr).length)
    (past : ∀ p, p < g'.lap (p % 2 ^ k) → Read (tr ++ [(t, e)]) p) :
    Inv k (tr ++ [(t, e)]) ⟨q', Function.update s.pc t pc'⟩ g' := by
  have hE : enqueueClaims (tr ++ [(t, e)]) = enqueueClaims tr := by simp [hec]
  have hD : dequeueClaims (tr ++ [(t, e)]) = dequeueClaims tr := by simp [hdc]
  have hitem : itemAt (tr ++ [(t, e)]) = itemAt tr := by
    funext p
    simp only [itemAt, hE]
  constructor
  case enqueuePos => rw [hE, hqE, inv.enqueuePos]
  case dequeuePos => rw [hD, hqD, inv.dequeuePos]
  case le => rw [hE, hD]; exact inv.le
  case cell => exact cell
  case thread =>
    intro u
    by_cases hu : u = t
    · subst hu
      simpa using self
    · simp only [Function.update_of_ne hu]
      refine (inv.thread u).frame inv.le (by rw [hE]) (by rw [hD]) ?_
      rw [hE, hD]
      exact others u hu
  case claims_unique => exact unique_update inv.claims_unique hclaims
  case takes_unique => exact unique_update inv.takes_unique htakes
  case positions => rw [hE]; exact inv.positions
  case taken => rw [hD]; exact inv.taken
  case returned_lt =>
    intro x hx
    rw [hD, hitem]
    rw [returned_snoc, List.mem_append, Option.mem_toList] at hx
    rcases hx with hx | hx
    · exact inv.returned_lt x hx
    · exact (hret x hx).1
  case returned_nodup =>
    rw [returned_snoc, List.map_append, List.nodup_append]
    refine ⟨inv.returned_nodup, ?_, ?_⟩
    · cases e.returned? <;> simp
    · intro a ha b hb
      obtain ⟨x, hx, rfl⟩ := List.mem_map.mp hb
      rintro rfl
      exact (hret x (Option.mem_toList.mp hx)).2 ha
  case written_lt =>
    intro p hp
    rw [hE]
    rcases (written_snoc tr t p e).mp hp with hp | hp
    · exact inv.written_lt p hp
    · exact hwr p hp
  case ok_lt =>
    intro v p hp
    rw [hE]
    rcases List.mem_append.mp hp with hp | hp
    · exact inv.ok_lt v p hp
    · cases List.mem_singleton.mp hp
      exact hok p rfl
  case past_read => exact past

theorem CellOk.frame {i : Nat} (h : CellOk k tr q g i)
    (hE : enqueueClaims tr' = enqueueClaims tr) (hD : dequeueClaims tr' = dequeueClaims tr)
    (hq : q'.buffer i = q.buffer i) (hlap : g'.lap i = g.lap i) (hpub : g'.pub i = g.pub i) :
    CellOk k tr' q' g' i := by
  constructor
  case sequence => rw [hq, Ghost.val, hlap, hpub]; exact h.sequence
  case lap_mod => rw [hlap]; exact h.lap_mod
  case lap_lo => rw [hlap, hE]; exact h.lap_lo
  case lap_hi => rw [hlap, hD]; exact h.lap_hi
  case pub =>
    intro hp
    rw [hlap, hE, hq, itemAt, hE]
    exact h.pub (hpub ▸ hp)
  case unpub =>
    intro hp
    rw [hlap, hD]
    exact h.unpub (hpub ▸ hp)

/-- Calls, loads, failed exchanges and empty-handed returns. -/
theorem Inv.silent (inv : Inv k tr s g) (hec : e.enqueueClaim? = none)
    (hdc : e.dequeueClaim? = none) (hret : e.returned? = none) (hwr : ∀ p, e ≠ .write p)
    (hok : ∀ p, e ≠ .enqueueOk p)
    (self : ThreadOk k (tr ++ [(t, e)]) s.queue g pc') (hclaims : pc'.claims = none)
    (htakes : pc'.takes = none) :
    Inv k (tr ++ [(t, e)]) ⟨s.queue, Function.update s.pc t pc'⟩ g := by
  have hE : enqueueClaims (tr ++ [(t, e)]) = enqueueClaims tr := by simp [hec]
  have hD : dequeueClaims (tr ++ [(t, e)]) = dequeueClaims tr := by simp [hdc]
  refine inv.of_noclaim hec hdc rfl rfl ?_ self ?_ ?_ ?_ ?_ ?_ ?_ ?_
  · intro i hi
    exact (inv.cell i hi).frame hE hD rfl rfl rfl
  · intro u hu p hp
    refine ⟨rfl, rfl, rfl, fun _ => by rw [itemAt, hE, itemAt], ?_, by simp [hret], ?_⟩
    · intro h
      exact ((written_snoc tr t p e).mp h).resolve_right (hwr p)
    · intro h
      exact (read_snoc tr t p e).mpr (Or.inl h)
  · simp [hclaims]
  · simp [htakes]
  · simp [hret]
  · intro p hp
    exact absurd hp (hwr p)
  · intro p hp
    exact absurd hp (hok p)
  · intro p hp
    exact (read_snoc tr t p e).mpr (Or.inl (inv.past_read p hp))

/-- Two positions of one residue class less than two laps apart. -/
theorem eq_or_add_eq {N x y : Nat} (hmod : x % N = y % N) (hlo : y ≤ x + N) (hhi : x < y + N) :
    x = y ∨ x + N = y := by
  rcases Nat.lt_or_ge x y with hlt | hge
  · right
    have hdvd := (Nat.modEq_iff_dvd' hlt.le).mp hmod
    have := Nat.le_of_dvd (by omega) hdvd
    omega
  · left
    have hdvd := (Nat.modEq_iff_dvd' hge).mp hmod.symm
    by_contra hne
    have := Nat.le_of_dvd (by omega) hdvd
    omega

/-- The cell of the current enqueue position is released for it, or still serves
the position one lap below. -/
theorem Inv.enqueue_lap (inv : Inv k tr s g) :
    g.lap ((enqueueClaims tr).length % 2 ^ k) = (enqueueClaims tr).length ∨
      g.lap ((enqueueClaims tr).length % 2 ^ k) + 2 ^ k = (enqueueClaims tr).length := by
  have c := inv.cell _ (Nat.mod_lt (enqueueClaims tr).length (Nat.two_pow_pos k))
  have := inv.le
  exact eq_or_add_eq c.lap_mod c.lap_lo (by have := c.lap_hi; omega)

/-- The cell of the current dequeue position serves it, or is not yet released
from the position one lap below. -/
theorem Inv.dequeue_lap (inv : Inv k tr s g) :
    g.lap ((dequeueClaims tr).length % 2 ^ k) = (dequeueClaims tr).length ∨
      g.lap ((dequeueClaims tr).length % 2 ^ k) + 2 ^ k = (dequeueClaims tr).length := by
  have c := inv.cell _ (Nat.mod_lt (dequeueClaims tr).length (Nat.two_pow_pos k))
  have := inv.le
  exact eq_or_add_eq c.lap_mod (by have := c.lap_lo; omega) c.lap_hi

/-- A successful exchange on `enqueue_pos`. -/
theorem Inv.enqueueClaim (inv : Inv k tr s g) {item : T}
    (hpc : s.pc t = .enqueueCas item (enqueueClaims tr).length) :
    Inv k (tr ++ [(t, .enqueueClaim (enqueueClaims tr).length item)])
      ⟨{ s.queue with enqueuePos := (enqueueClaims tr).length + 1 },
        Function.update s.pc t (.enqueueWrite item (enqueueClaims tr).length)⟩ g := by
  have hself := inv.thread t
  rw [hpc] at hself
  obtain ⟨hlap, hpub⟩ := hself.2 rfl
  generalize hn : (enqueueClaims tr).length = n at *
  have hlt : ∀ p, p < n → itemAt (tr ++ [(t, .enqueueClaim n item)]) p = itemAt tr p :=
    fun p hp => itemAt_snoc tr t p _ (hn ▸ hp)
  have fresh : ∀ u p, (s.pc u).claims = some p → p ≠ n := by
    intro u p hp
    have := ((inv.thread u).of_claims hp).1
    omega
  constructor
  case enqueuePos => simp [Event.enqueueClaim?, hn]
  case dequeuePos => simpa [Event.dequeueClaim?] using inv.dequeuePos
  case le =>
    have := inv.le
    simp [Event.enqueueClaim?, Event.dequeueClaim?]
    omega
  case cell =>
    intro i hi
    have c := inv.cell i hi
    have hne : n ≠ g.lap i + 2 ^ k := by
      intro heq
      have hi' : i = n % 2 ^ k := by rw [heq, Nat.add_mod_right]; exact c.lap_mod.symm
      have := Nat.two_pow_pos k
      rw [hi', hlap] at heq
      omega
    constructor
    case sequence => exact c.sequence
    case lap_mod => exact c.lap_mod
    case lap_lo =>
      have := c.lap_lo
      simp [Event.enqueueClaim?, hn]
      omega
    case lap_hi => simpa [Event.dequeueClaim?] using c.lap_hi
    case pub =>
      intro hp
      obtain ⟨hl, hdata⟩ := c.pub hp
      refine ⟨by simp [Event.enqueueClaim?]; omega, ?_⟩
      rw [hlt _ (hn ▸ hl)]
      exact hdata
    case unpub => simpa [Event.dequeueClaim?] using c.unpub
  case thread =>
    intro u
    by_cases hu : u = t
    · subst hu
      simp only [Function.update_self]
      refine ⟨by simp [Event.enqueueClaim?]; omega, hlap, hpub, ?_, ?_⟩
      · simp [itemAt, Event.enqueueClaim?, ← hn]
      · intro hw
        rcases (written_snoc tr u n _).mp hw with hw | hw
        · have := inv.written_lt n hw
          omega
        · cases hw
    · simp only [Function.update_of_ne hu]
      refine (inv.thread u).frame inv.le (by simp) (by simp) ?_
      intro p hp
      exact ⟨rfl, rfl, rfl, fun hp' => hlt p (hn ▸ hp'), by simp, by simp [Event.returned?], by simp⟩
  case claims_unique =>
    intro v u p hv hu
    by_cases hvt : v = t <;> by_cases hut : u = t
    · rw [hvt, hut]
    · subst hvt
      simp only [Function.update_self, Pc.claims, Option.some.injEq] at hv
      simp only [Function.update_of_ne hut] at hu
      exact absurd hv.symm (fresh u p hu)
    · subst hut
      simp only [Function.update_self, Pc.claims, Option.some.injEq] at hu
      simp only [Function.update_of_ne hvt] at hv
      exact absurd hu.symm (fresh v p hv)
    · simp only [Function.update_of_ne hvt] at hv
      simp only [Function.update_of_ne hut] at hu
      exact inv.claims_unique v u p hv hu
  case takes_unique => exact unique_update inv.takes_unique (by simp [Pc.takes])
  case positions =>
    have h := inv.positions
    rw [hn] at h
    simp [Event.enqueueClaim?, h, hn, List.range_succ]
  case taken => simpa [Event.dequeueClaim?] using inv.taken
  case returned_lt =>
    intro x hx
    simp only [returned_snoc, Event.returned?, Option.toList_none, List.append_nil] at hx
    obtain ⟨hl, hx2⟩ := inv.returned_lt x hx
    have := inv.le
    exact ⟨by simpa [Event.dequeueClaim?] using hl, by rw [hlt _ (by omega)]; exact hx2⟩
  case returned_nodup => simpa [Event.returned?] using inv.returned_nodup
  case written_lt =>
    intro p hp
    have := inv.written_lt p (by simpa using hp)
    simp [Event.enqueueClaim?]
    omega
  case ok_lt =>
    intro v p hp
    have := inv.ok_lt v p (by simpa using hp)
    simp [Event.enqueueClaim?]
    omega
  case past_read =>
    intro p hp
    simpa using inv.past_read p hp

/-- A successful exchange on `dequeue_pos`. -/
theorem Inv.dequeueClaim (inv : Inv k tr s g)
    (hpc : s.pc t = .dequeueCas (dequeueClaims tr).length) :
    Inv k (tr ++ [(t, .dequeueClaim (dequeueClaims tr).length)])
      ⟨{ s.queue with dequeuePos := (dequeueClaims tr).length + 1 },
        Function.update s.pc t (.dequeueRead (dequeueClaims tr).length)⟩ g := by
  have hself := inv.thread t
  rw [hpc] at hself
  obtain ⟨hlap, hpub⟩ := hself.2 rfl
  have hpublished := ((inv.cell _ (Nat.mod_lt _ (Nat.two_pow_pos k))).pub hpub).1
  rw [hlap] at hpublished
  generalize hn : (dequeueClaims tr).length = n at *
  have hE : enqueueClaims (tr ++ [(t, Event.dequeueClaim n)]) = enqueueClaims tr := by
    simp [Event.enqueueClaim?]
  have hitem : itemAt (tr ++ [(t, Event.dequeueClaim n)]) = itemAt tr := by
    funext p
    simp only [itemAt, hE]
  have fresh : ∀ u p, (s.pc u).takes = some p → p ≠ n := by
    intro u p hp
    have := ((inv.thread u).of_takes hp).1
    omega
  constructor
  case enqueuePos => rw [hE]; exact inv.enqueuePos
  case dequeuePos => simp [Event.dequeueClaim?, hn]
  case le =>
    rw [hE]
    simp [Event.dequeueClaim?]
    omega
  case cell =>
    intro i hi
    have c := inv.cell i hi
    constructor
    case sequence => exact c.sequence
    case lap_mod => exact c.lap_mod
    case lap_lo => rw [hE]; exact c.lap_lo
    case lap_hi =>
      have := c.lap_hi
      simp [Event.dequeueClaim?]
      omega
    case pub => rw [hE, hitem]; exact c.pub
    case unpub =>
      intro hp
      have := c.unpub hp
      have hne : n ≠ g.lap i := by
        intro heq
        have hi' : i = n % 2 ^ k := by rw [heq]; exact c.lap_mod.symm
        rw [← hi', hp] at hpub
        cases hpub
      simp [Event.dequeueClaim?]
      omega
  case thread =>
    intro u
    by_cases hu : u = t
    · subst hu
      simp only [Function.update_self]
      refine ⟨by simp [Event.dequeueClaim?]; omega, hlap, hpub, ?_⟩
      intro hm
      obtain ⟨x, hx, hx1⟩ := List.mem_map.mp hm
      have := (inv.returned_lt x (by simpa [Event.returned?] using hx)).1
      omega
    · simp only [Function.update_of_ne hu]
      refine (inv.thread u).frame inv.le (by simp) (by simp) ?_
      intro p hp
      exact ⟨rfl, rfl, rfl, fun _ => by rw [hitem], by simp, by simp [Event.returned?], by simp⟩
  case claims_unique => exact unique_update inv.claims_unique (by simp [Pc.claims])
  case takes_unique =>
    intro v u p hv hu
    by_cases hvt : v = t <;> by_cases hut : u = t
    · rw [hvt, hut]
    · subst hvt
      simp only [Function.update_self, Pc.takes, Option.some.injEq] at hv
      simp only [Function.update_of_ne hut] at hu
      exact absurd hv.symm (fresh u p hu)
    · subst hut
      simp only [Function.update_self, Pc.takes, Option.some.injEq] at hu
      simp only [Function.update_of_ne hvt] at hv
      exact absurd hu.symm (fresh v p hv)
    · simp only [Function.update_of_ne hvt] at hv
      simp only [Function.update_of_ne hut] at hu
      exact inv.takes_unique v u p hv hu
  case positions => rw [hE]; exact inv.positions
  case taken =>
    have h := inv.taken
    rw [hn] at h
    simp [Event.dequeueClaim?, h, List.range_succ]
  case returned_lt =>
    intro x hx
    simp only [returned_snoc, Event.returned?, Option.toList_none, List.append_nil] at hx
    obtain ⟨hl, hx2⟩ := inv.returned_lt x hx
    rw [hitem]
    exact ⟨by simp [Event.dequeueClaim?]; omega, hx2⟩
  case returned_nodup => simpa [Event.returned?] using inv.returned_nodup
  case written_lt =>
    intro p hp
    rw [hE]
    exact inv.written_lt p (by simpa using hp)
  case ok_lt =>
    intro v p hp
    rw [hE]
    exact inv.ok_lt v p (by simpa using hp)
  case past_read =>
    intro p hp
    simpa using inv.past_read p hp

/-- The owner of an enqueue position writes the item. -/
theorem Inv.write (inv : Inv k tr s g) {item : T} (hpc : s.pc t = .enqueueWrite item pos) :
    Inv k (tr ++ [(t, .write pos)])
      ⟨s.queue.setData (pos % 2 ^ k) item, Function.update s.pc t (.enqueueStore pos)⟩ g := by
  have hself := inv.thread t
  rw [hpc] at hself
  obtain ⟨hlt, hlap, hpub, hitem, hwr⟩ := hself
  have hclaim : (s.pc t).claims = some pos := by rw [hpc]; rfl
  have hE : enqueueClaims (tr ++ [(t, Event.write pos)]) = enqueueClaims tr := by
    simp [Event.enqueueClaim?]
  have hD : dequeueClaims (tr ++ [(t, Event.write pos)]) = dequeueClaims tr := by
    simp [Event.dequeueClaim?]
  have hat : itemAt (tr ++ [(t, Event.write pos)]) = itemAt tr := by
    funext p
    simp only [itemAt, hE]
  refine inv.of_noclaim rfl rfl rfl rfl ?_ ?_ ?_ ?_ ?_ ?_ ?_ ?_ ?_
  · intro i hi
    have c := inv.cell i hi
    by_cases hic : i = pos % 2 ^ k
    · constructor
      case sequence => rw [setData_sequence]; exact c.sequence
      case lap_mod => exact c.lap_mod
      case lap_lo => rw [hE]; exact c.lap_lo
      case lap_hi => rw [hD]; exact c.lap_hi
      case pub => intro hp; rw [hic, hpub] at hp; cases hp
      case unpub => rw [hD]; exact c.unpub
    · exact c.frame hE hD (by simp [setData, hic]) rfl rfl
  · refine ⟨by rw [hE]; exact hlt, hlap, hpub, ?_⟩
    rw [setData_data, if_pos rfl, hat, hitem]
  · intro u hu p hp
    have hne := inv.other_of_claims hclaim hu hp
    refine ⟨rfl, rfl, by rw [setData_data, if_neg hne], fun _ => by rw [hat], ?_, ?_, ?_⟩
    · intro h
      refine ((written_snoc tr t p _).mp h).resolve_right ?_
      intro heq
      cases heq
      exact hne rfl
    · simp [Event.returned?]
    · simp
  · intro p hp
    rw [hclaim]
    exact hp
  · simp [Pc.takes]
  · simp [Event.returned?]
  · intro p hp
    cases hp
    exact hlt
  · simp
  · intro p hp
    simpa using inv.past_read p hp

/-- The owner of an enqueue position publishes the cell. -/
theorem Inv.publish (inv : Inv k tr s g) (hpc : s.pc t = .enqueueStore pos) :
    Inv k (tr ++ [(t, .enqueueOk pos)])
      ⟨s.queue.setSequence (pos % 2 ^ k) ((pos + 1) % 2 ^ 64), Function.update s.pc t .idle⟩
      { g with pub := Function.update g.pub (pos % 2 ^ k) true } := by
  have hself := inv.thread t
  rw [hpc] at hself
  obtain ⟨hlt, hlap, hpub, hdata⟩ := hself
  have hclaim : (s.pc t).claims = some pos := by rw [hpc]; rfl
  have hE : enqueueClaims (tr ++ [(t, Event.enqueueOk pos)]) = enqueueClaims tr := by
    simp [Event.enqueueClaim?]
  have hD : dequeueClaims (tr ++ [(t, Event.enqueueOk pos)]) = dequeueClaims tr := by
    simp [Event.dequeueClaim?]
  have hat : itemAt (tr ++ [(t, Event.enqueueOk pos)]) = itemAt tr := by
    funext p
    simp only [itemAt, hE]
  refine inv.of_noclaim rfl rfl rfl rfl ?_ trivial ?_ ?_ ?_ ?_ ?_ ?_ ?_
  · intro i hi
    have c := inv.cell i hi
    by_cases hic : i = pos % 2 ^ k
    · subst hic
      constructor
      case sequence => simp [setSequence_sequence, Ghost.val, hlap]
      case lap_mod => exact c.lap_mod
      case lap_lo => rw [hE]; exact c.lap_lo
      case lap_hi => rw [hD]; exact c.lap_hi
      case pub =>
        intro _
        rw [hE, hat, hlap, setSequence_data]
        exact ⟨hlt, hdata⟩
      case unpub => intro hp; simp at hp
    · exact c.frame hE hD (by simp [setSequence, hic]) rfl (by simp [hic])
  · intro u hu p hp
    have hne := inv.other_of_claims hclaim hu hp
    exact ⟨rfl, by simp [hne], by simp, fun _ => by rw [hat], by simp,
      by simp [Event.returned?], by simp⟩
  · simp [Pc.claims]
  · simp [Pc.takes]
  · simp [Event.returned?]
  · simp
  · intro p hp
    cases hp
    exact hlt
  · intro p hp
    simpa using inv.past_read p hp

/-- The owner of a dequeue position reads the item. -/
theorem Inv.read (inv : Inv k tr s g) (hpc : s.pc t = .dequeueRead pos) :
    Inv k (tr ++ [(t, .read pos)])
      ⟨s.queue, Function.update s.pc t
        (.dequeueStore pos (s.queue.buffer (pos % 2 ^ k)).data)⟩ g := by
  have hself := inv.thread t
  rw [hpc] at hself
  obtain ⟨hlt, hlap, hpub, hret⟩ := hself
  have htake : (s.pc t).takes = some pos := by rw [hpc]; rfl
  have hE : enqueueClaims (tr ++ [(t, Event.read pos)]) = enqueueClaims tr := by
    simp [Event.enqueueClaim?]
  have hD : dequeueClaims (tr ++ [(t, Event.read pos)]) = dequeueClaims tr := by
    simp [Event.dequeueClaim?]
  have hat : itemAt (tr ++ [(t, Event.read pos)]) = itemAt tr := by
    funext p
    simp only [itemAt, hE]
  have hdata := ((inv.cell _ (Nat.mod_lt pos (Nat.two_pow_pos k))).pub hpub).2
  rw [hlap] at hdata
  refine inv.of_noclaim rfl rfl rfl rfl ?_ ?_ ?_ ?_ ?_ ?_ ?_ ?_ ?_
  · intro i hi
    exact (inv.cell i hi).frame hE hD rfl rfl rfl
  · refine ⟨by rw [hD]; exact hlt, hlap, hpub, by simpa [Event.returned?] using hret, ?_, ?_⟩
    · exact (read_snoc tr t pos _).mpr (Or.inr rfl)
    · rw [hat]
      exact hdata
  · intro u hu p hp
    exact ⟨rfl, rfl, rfl, fun _ => by rw [hat], by simp, by simp [Event.returned?],
      fun h => (read_snoc tr t p _).mpr (Or.inl h)⟩
  · simp [Pc.claims]
  · intro p hp
    rw [htake]
    exact hp
  · simp [Event.returned?]
  · simp
  · simp
  · intro p hp
    exact (read_snoc tr t p _).mpr (Or.inl (inv.past_read p hp))

/-- The owner of a dequeue position releases the cell to the next lap. -/
theorem Inv.release (inv : Inv k tr s g) {data : Option T}
    (hpc : s.pc t = .dequeueStore pos data) :
    Inv k (tr ++ [(t, .dequeueSome pos data)])
      ⟨s.queue.setSequence (pos % 2 ^ k) ((pos + 2 ^ k) % 2 ^ 64), Function.update s.pc t .idle⟩
      { lap := Function.update g.lap (pos % 2 ^ k) (pos + 2 ^ k)
        pub := Function.update g.pub (pos % 2 ^ k) false } := by
  have hself := inv.thread t
  rw [hpc] at hself
  obtain ⟨hlt, hlap, hpub, hret, hread, hdata⟩ := hself
  have htake : (s.pc t).takes = some pos := by rw [hpc]; rfl
  have hE : enqueueClaims (tr ++ [(t, Event.dequeueSome pos data)]) = enqueueClaims tr := by
    simp [Event.enqueueClaim?]
  have hD : dequeueClaims (tr ++ [(t, Event.dequeueSome pos data)]) = dequeueClaims tr := by
    simp [Event.dequeueClaim?]
  have hat : itemAt (tr ++ [(t, Event.dequeueSome pos data)]) = itemAt tr := by
    funext p
    simp only [itemAt, hE]
  have hle := inv.le
  refine inv.of_noclaim rfl rfl rfl rfl ?_ trivial ?_ ?_ ?_ ?_ ?_ ?_ ?_
  · intro i hi
    have c := inv.cell i hi
    by_cases hic : i = pos % 2 ^ k
    · subst hic
      have hlo := c.lap_lo
      rw [hlap] at hlo
      constructor
      case sequence => simp [setSequence_sequence, Ghost.val]
      case lap_mod => simp
      case lap_lo => rw [hE]; simp only [Function.update_self]; omega
      case lap_hi => rw [hD]; simp only [Function.update_self]; omega
      case pub => intro hp; simp at hp
      case unpub => intro _; rw [hD]; simp only [Function.update_self]; omega
    · exact c.frame hE hD (by simp [setSequence, hic]) (by simp [hic]) (by simp [hic])
  · intro u hu p hp
    have hne := inv.other_of_takes htake hu hp
    refine ⟨by simp [hne], by simp [hne], by simp, fun _ => by rw [hat], by simp, ?_, by simp⟩
    intro hm
    rw [returned_snoc, List.map_append, List.mem_append] at hm
    refine hm.resolve_right ?_
    intro hp'
    simp only [Event.returned?, Option.toList_some, List.map_cons, List.map_nil,
      List.mem_singleton] at hp'
    exact hne (by rw [hp'])
  · simp [Pc.claims]
  · simp [Pc.takes]
  · intro x hx
    cases hx
    exact ⟨⟨hlt, hdata⟩, hret⟩
  · simp
  · simp
  · intro p hp
    refine (read_snoc tr t p _).mpr (Or.inl ?_)
    by_cases hpc' : p % 2 ^ k = pos % 2 ^ k
    · simp only [hpc', Function.update_self] at hp
      rcases Nat.lt_trichotomy p pos with h | h | h
      · exact inv.past_read p (by rw [hpc', hlap]; exact h)
      · exact h ▸ hread
      · have := Nat.le_of_dvd (by omega) ((Nat.modEq_iff_dvd' h.le).mp hpc'.symm)
        omega
    · simp only [Function.update_of_ne hpc'] at hp
      exact inv.past_read p hp

theorem two_le_two_pow (hk : 1 ≤ k) : 2 ≤ 2 ^ k :=
  Nat.pow_le_pow_right (n := 2) (by decide) hk

theorem two_pow_le_128 (hk : k ≤ 7) : 2 ^ k ≤ 128 :=
  Nat.pow_le_pow_right (n := 2) (j := 7) (by decide) hk

/-- The byte difference an enqueue computes from a load of its cell. -/
theorem Inv.enqueue_dif (inv : Inv k tr s g) (pos : Nat) :
    wrappingSubI8 (asI8 (s.queue.buffer (pos % 2 ^ k)).sequence) (asI8 pos) =
      Int.bmod ((g.val (pos % 2 ^ k) : Int) - pos) 256 := by
  rw [(inv.cell _ (Nat.mod_lt pos (Nat.two_pow_pos k))).sequence, dif_wrapped_left]

/-- The byte difference a dequeue computes from a load of its cell. -/
theorem Inv.dequeue_dif (inv : Inv k tr s g) (pos : Nat) :
    wrappingSubI8 (asI8 (s.queue.buffer (pos % 2 ^ k)).sequence) (asI8 (wrappingAdd pos 1)) =
      Int.bmod ((g.val (pos % 2 ^ k) : Int) - (pos + 1 : Nat)) 256 := by
  rw [(inv.cell _ (Nat.mod_lt pos (Nat.two_pow_pos k))).sequence, wrappingAdd, dif_wrapped]

/-- A zero difference at the current enqueue position means a released cell. -/
theorem Inv.enqueue_ready (inv : Inv k tr s g) (hk : 1 ≤ k) (hk' : k ≤ 7)
    (hpos : pos = (enqueueClaims tr).length)
    (hdif : Int.bmod ((g.val (pos % 2 ^ k) : Int) - pos) 256 = 0) :
    g.lap (pos % 2 ^ k) = pos ∧ g.pub (pos % 2 ^ k) = false := by
  subst hpos
  have hN := two_le_two_pow hk
  have hN' := two_pow_le_128 hk'
  have c := inv.cell _ (Nat.mod_lt (enqueueClaims tr).length (Nat.two_pow_pos k))
  rw [Ghost.val] at hdif
  rcases inv.enqueue_lap with hlap | hlap <;>
    cases hpub : g.pub ((enqueueClaims tr).length % 2 ^ k) <;>
    simp only [hpub, Bool.toNat_true, Bool.toNat_false] at hdif
  case inl.false => exact ⟨hlap, rfl⟩
  case inl.true => exact absurd (c.pub hpub).1 (by omega)
  all_goals
    rw [bmod_byte (by omega) (by omega)] at hdif
    omega

/-- A zero difference at the current dequeue position means a published cell. -/
theorem Inv.dequeue_ready (inv : Inv k tr s g) (hk : 1 ≤ k) (hk' : k ≤ 7)
    (hpos : pos = (dequeueClaims tr).length)
    (hdif : Int.bmod ((g.val (pos % 2 ^ k) : Int) - (pos + 1 : Nat)) 256 = 0) :
    g.lap (pos % 2 ^ k) = pos ∧ g.pub (pos % 2 ^ k) = true := by
  subst hpos
  have hN := two_le_two_pow hk
  have hN' := two_pow_le_128 hk'
  have c := inv.cell _ (Nat.mod_lt (dequeueClaims tr).length (Nat.two_pow_pos k))
  rw [Ghost.val] at hdif
  rcases inv.dequeue_lap with hlap | hlap <;>
    cases hpub : g.pub ((dequeueClaims tr).length % 2 ^ k) <;>
    simp only [hpub, Bool.toNat_true, Bool.toNat_false] at hdif
  case inl.true => exact ⟨hlap, rfl⟩
  case inr.false => exact absurd (c.unpub hpub) (by omega)
  all_goals
    rw [bmod_byte (by omega) (by omega)] at hdif
    omega

/-- Every step of every thread preserves the invariant, for some new ghost state. -/
theorem inv_step (hk : 1 ≤ k) (hk' : k ≤ 7) {s' : State T} {a : Nat × Event T}
    (inv : Inv k tr s g) (h : Step (2 ^ k) s a s') (hb : Bounded (tr ++ [a])) :
    ∃ g', Inv k (tr ++ [a]) s' g' := by
  cases h with
  | enqueue item idle => exact ⟨g, inv.silent rfl rfl rfl (by simp) (by simp) trivial rfl rfl⟩
  | dequeue idle => exact ⟨g, inv.silent rfl rfl rfl (by simp) (by simp) trivial rfl rfl⟩
  | @act t weak running =>
      have hself := inv.thread t
      cases hpc : s.pc t <;> rw [hpc] at hself hb <;> simp only [act, cellIdx_two_pow] at hb ⊢
      case idle => exact absurd hpc running
      case dequeueLoad =>
        exact ⟨g, inv.silent rfl rfl rfl (by simp) (by simp)
          (by rw [inv.dequeuePos]; simp [ThreadOk]) rfl rfl⟩
      case enqueueLoad item =>
        exact ⟨g, inv.silent rfl rfl rfl (by simp) (by simp)
          (by rw [inv.enqueuePos]; simp [ThreadOk]) rfl rfl⟩
      case dequeueSeq pos =>
        rw [inv.dequeue_dif]
        split_ifs with hz hneg
        · refine ⟨g, inv.silent rfl rfl rfl (by simp) (by simp)
            ⟨by simpa [ThreadOk, Event.dequeueClaim?] using hself, ?_⟩ rfl rfl⟩
          intro heq
          exact inv.dequeue_ready hk hk' (by simpa [Event.dequeueClaim?] using heq) hz
        · exact ⟨g, inv.silent rfl rfl rfl (by simp) (by simp) trivial rfl rfl⟩
        · exact ⟨g, inv.silent rfl rfl rfl (by simp) (by simp) trivial rfl rfl⟩
      case enqueueSeq item pos =>
        rw [inv.enqueue_dif]
        split_ifs with hz hneg
        · refine ⟨g, inv.silent rfl rfl rfl (by simp) (by simp)
            ⟨by simpa [ThreadOk, Event.enqueueClaim?] using hself, ?_⟩ rfl rfl⟩
          intro heq
          exact inv.enqueue_ready hk hk' (by simpa [Event.enqueueClaim?] using heq) hz
        · exact ⟨g, inv.silent rfl rfl rfl (by simp) (by simp) trivial rfl rfl⟩
        · exact ⟨g, inv.silent rfl rfl rfl (by simp) (by simp) trivial rfl rfl⟩
      case dequeueCas pos =>
        by_cases hc : s.queue.dequeuePos = pos ∧ weak = false
        · simp only [if_pos hc] at hb ⊢
          obtain rfl : pos = (dequeueClaims tr).length := hc.1.symm.trans inv.dequeuePos
          have hlt := hb.dequeue
          simp only [dequeueClaims_snoc, Event.dequeueClaim?, Option.toList_some,
            List.length_append, List.length_singleton] at hlt
          rw [wrappingAdd, Nat.mod_eq_of_lt hlt]
          exact ⟨g, inv.dequeueClaim hpc⟩
        · simp only [if_neg hc]
          exact ⟨g, inv.silent rfl rfl rfl (by simp) (by simp)
            (by simpa [ThreadOk, Event.dequeueClaim?] using hself.1) rfl rfl⟩
      case enqueueCas item pos =>
        by_cases hc : s.queue.enqueuePos = pos ∧ weak = false
        · simp only [if_pos hc] at hb ⊢
          obtain rfl : pos = (enqueueClaims tr).length := hc.1.symm.trans inv.enqueuePos
          have hlt := hb.enqueue
          simp only [enqueueClaims_snoc, Event.enqueueClaim?, Option.toList_some,
            List.length_append, List.length_singleton] at hlt
          rw [wrappingAdd, Nat.mod_eq_of_lt hlt]
          exact ⟨g, inv.enqueueClaim hpc⟩
        · simp only [if_neg hc]
          exact ⟨g, inv.silent rfl rfl rfl (by simp) (by simp)
            (by simpa [ThreadOk, Event.enqueueClaim?] using hself.1) rfl rfl⟩
      case dequeueRead pos => exact ⟨g, inv.read hpc⟩
      case enqueueWrite item pos => exact ⟨g, inv.write hpc⟩
      case enqueueStore pos => exact ⟨_, inv.publish hpc⟩
      case dequeueStore pos data =>
        have hrelease : wrappingAdd (wrappingAdd pos (2 ^ k - 1)) 1 = (pos + 2 ^ k) % 2 ^ 64 := by
          have := Nat.two_pow_pos k
          simp only [wrappingAdd]
          omega
        rw [hrelease]
        exact ⟨_, inv.release hpc⟩

/-- The invariant holds throughout every run in which no counter wraps. -/
theorem inv_run (hk : 1 ≤ k) (hk' : k ≤ 7) (run : Run (Step (2 ^ k)) State.new tr s)
    (hb : Bounded tr) : ∃ g, Inv k tr s g :=
  run.history_invariant (I := fun tr s => Bounded tr → ∃ g, Inv k tr s g)
    (fun _ => ⟨_, inv_new k (by omega)⟩)
    (fun _ _ _ _ ih hstep hb => by
      obtain ⟨g, inv⟩ := ih hb.of_snoc
      exact inv_step hk hk' inv hstep hb) hb

end UniAlloc.Mpmc
