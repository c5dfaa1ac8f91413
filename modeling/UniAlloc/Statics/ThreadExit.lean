import UniAlloc.Statics.Tls

/-!
# Who has a thread cache when threads exit

A block that a thread holds is live in `META_BUMP`, and no other thread holds it. The thread local
of a thread that has given its block back still points to it, and nothing but the order of the
steps keeps the block from the next thread until the first one is gone.
-/

namespace UniAlloc.Tls

open MetaBump (Sizes Callable Maps Fits rounded)
open PageBump (Apart)

variable {sz : Sizes} {s s' : State} {m : Move} {th th' : Thread} {t u p : Nat}
variable {free free' : List (Nat × Nat)} {bump : MetaBump.State}

/-- What holds of a thread at each program point. -/
def Thread.At (th : Thread) : Pc → Prop
  | .idle => True
  | .load => th.cleaned = false
  | .boxNew => th.value = 0
  | .store p => th.value = 0 ∧ p ≠ 0
  | .checkTsd | .registerKey | .setTsd | .saveTls =>
      th.value ≠ 0 ∧ th.cleaned = false ∧ ∀ k, th.specific k = 0
  | .inUse p => th.value = p ∧ p ≠ 0 ∧ th.cleaned = false
  | .cleanUp p => th.value = p ∧ p ≠ 0 ∧ th.cleaned = false ∧ ∀ k, th.specific k = 0

/-- At most one key has a value, and only while the thread holds its block. -/
structure Thread.Ok (th : Thread) : Prop where
  fresh : th.value = 0 → th.cleaned = false ∧ ∀ k, th.specific k = 0
  key : ∀ k, th.specific k ≠ 0 → th.specific k = th.value ∧ th.cleaned = false
  once : ∀ k k', th.specific k ≠ 0 → th.specific k' ≠ 0 → k = k'
  present : th.pc ≠ .idle → th.phase ≠ .exited
  point : th.At th.pc

theorem Thread.Ok.goto (ok : th.Ok) {c : Pc} (present : c ≠ .idle → th.phase ≠ .exited)
    (point : th.At c) : Thread.Ok { th with pc := c } :=
  ⟨ok.fresh, ok.key, ok.once, present, point⟩

/-- The thread holds no other block than before, and it has not come back. -/
structure Thread.Follows (th th' : Thread) : Prop where
  ok : th'.Ok
  value : th'.value = th.value
  phase : th'.phase ≠ .exited → th.phase ≠ .exited
  holds : ∀ p, th'.Holds p → th.Holds p

theorem Thread.Follows.refl (ok : th.Ok) : th.Follows th := ⟨ok, rfl, id, fun _ h => h⟩

theorem Thread.Follows.reaches (h : th.Follows th') (hp : th'.Reaches p) : th.Reaches p :=
  ⟨h.phase hp.1, h.value.symm.trans hp.2.1, hp.2.2⟩

/-- A cache that is read or written belongs to the thread. -/
theorem Thread.Ok.holds_of_block (ok : th.Ok) (h : th.pc.block = some p) : th.Holds p := by
  cases hpc : th.pc with
  | store ptr =>
      rw [hpc] at h
      obtain rfl := Option.some.inj h
      exact .inl hpc
  | inUse ptr =>
      rw [hpc] at h
      obtain rfl := Option.some.inj h
      have hpoint := ok.point
      rw [hpc] at hpoint
      exact .inr hpoint
  | cleanUp ptr =>
      rw [hpc] at h
      obtain rfl := Option.some.inj h
      have hpoint := ok.point
      rw [hpc] at hpoint
      exact .inr ⟨hpoint.1, hpoint.2.1, hpoint.2.2.1⟩
  | _ =>
      rw [hpc] at h
      exact absurd h.symm (Option.some_ne_none p)

/-- A thread that reaches a block and has not cleaned up holds it. -/
theorem Thread.Reaches.holds (h : th.Reaches p) (hclean : th.cleaned = false) : th.Holds p :=
  .inr ⟨h.2.1, h.2.2, hclean⟩

/-- `free` are the blocks on the backup list. -/
structure Inv (sz : Sizes) (s : State) (free : List (Nat × Nat)) : Prop where
  bump : MetaBump.Inv sz s.shared.bump free
  ok : ∀ t, (s.thread t).Ok
  live : ∀ t p, (s.thread t).Holds p → (p, sz.threadCache) ∈ s.shared.bump.live
  single : ∀ t u p, (s.thread t).Holds p → (s.thread u).Holds p → t = u
  left : ∀ t p, (s.thread t).Reaches p → p ∈ (s.shared.bump.live ++ free).map Prod.fst
  alone : ∀ t u p, (s.thread t).Reaches p → (s.thread u).Reaches p → t = u

@[simp] theorem setThread_self (s : State) (t : Nat) (th : Thread) :
    (s.setThread t th).thread t = th := by
  simp [State.setThread]

theorem setThread_of_ne (s : State) (th : Thread) (h : u ≠ t) :
    (s.setThread t th).thread u = s.thread u := by
  simp [State.setThread, h]

/-- One thread moves on, the others stay. -/
theorem follows_setThread (ok : ∀ u, (s.thread u).Ok) (h : (s.thread t).Follows th) (u : Nat) :
    (s.thread u).Follows ((s.setThread t th).thread u) := by
  obtain rfl | hne := eq_or_ne u t
  · rwa [setThread_self]
  · rw [setThread_of_ne s th hne]
    exact .refl (ok u)

namespace Inv

theorem follow (h : Inv sz s free) (hbump : s'.shared.bump = s.shared.bump)
    (follows : ∀ u, (s.thread u).Follows (s'.thread u)) : Inv sz s' free where
  bump := by
    rw [hbump]
    exact h.bump
  ok u := (follows u).ok
  live u p hp := by
    rw [hbump]
    exact h.live u p ((follows u).holds p hp)
  single t u p ht hu := h.single t u p ((follows t).holds p ht) ((follows u).holds p hu)
  left u p hp := by
    rw [hbump]
    exact h.left u p ((follows u).reaches hp)
  alone t u p ht hu := h.alone t u p ((follows t).reaches ht) ((follows u).reaches hu)

theorem setBump (h : Inv sz s free) (hbump : MetaBump.Inv sz bump free')
    (live : ∀ t p, (s.thread t).Holds p → (p, sz.threadCache) ∈ bump.live)
    (kept : ∀ q ∈ (s.shared.bump.live ++ free).map Prod.fst,
      q ∈ (bump.live ++ free').map Prod.fst) : Inv sz (s.setBump bump) free' where
  bump := hbump
  ok := h.ok
  live := live
  single := h.single
  left t p hp := kept p (h.left t p hp)
  alone := h.alone

/-- A write into a live block. -/
theorem store (h : Inv sz s free) {r : Nat × Nat} (hr : r ∈ s.shared.bump.live) {a v : Nat}
    (hlo : r.1 ≤ a) (hhi : a < r.1 + r.2) : Inv sz (s.setBump (s.shared.bump.store a v)) free :=
  h.setBump (h.bump.write hr hlo hhi v) h.live fun _ hq => hq

/-- No thread holds a block that `META_BUMP` has just handed out. -/
theorem alloc (h : Inv sz s free) {size start : Nat}
    (hcall : Callable s.shared.bump .mapped size start)
    (hfits : Fits s.shared.bump .mapped sz size) :
    ∃ p free', (s.shared.bump.metaBump.alloc .mapped sz s.shared.bump.mem size start).2 = some p ∧
      p ≠ 0 ∧ (p, rounded sz size) ∈ (s.shared.bump.alloc .mapped sz size start).live ∧
      (∀ t, ¬(s.thread t).Holds p) ∧
      Inv sz (s.setBump (s.shared.bump.alloc .mapped sz size start)) free' := by
  obtain ⟨p, free', hp, hne, hlive, hinv, kept⟩ := h.bump.alloc_mapped hcall hfits
  refine ⟨p, free', hp, hne, ?_, ?_, h.setBump hinv ?_ kept⟩
  · rw [hlive]
    exact List.mem_cons_self
  · intro t ht
    have hapart := hinv.apart
    rw [hlive, List.cons_append, List.pairwise_cons] at hapart
    have hpos := sz.pos
    have := hapart.1 _ (List.mem_append_left _ (h.live t p ht))
    have hle := (MetaBump.rounded_spec sz hcall.pos).2
    simp only [Apart] at this
    omega
  · intro t q hq
    rw [hlive]
    exact List.mem_cons_of_mem _ (h.live t q hq)

/-- A thread takes a block that nobody holds. -/
theorem take (h : Inv sz s free) (hpc : (s.thread t).pc = .boxNew) (hne : p ≠ 0)
    (hlive : (p, sz.threadCache) ∈ s.shared.bump.live) (hnone : ∀ u, ¬(s.thread u).Holds p) :
    Inv sz (s.setThread t { s.thread t with pc := .store p }) free := by
  have hvalue := (h.ok t).point
  rw [hpc] at hvalue
  have hbusy := (h.ok t).present (by rw [hpc]; exact Pc.noConfusion)
  have hheld : ∀ u q, ((s.setThread t { s.thread t with pc := .store p }).thread u).Holds q →
      u = t ∧ q = p ∨ u ≠ t ∧ (s.thread u).Holds q := by
    intro u q hq
    obtain rfl | hne' := eq_or_ne u t
    · rw [setThread_self] at hq
      obtain hq | ⟨hq, hq0, -⟩ := hq
      · exact .inl ⟨rfl, (Pc.store.inj hq).symm⟩
      · exact absurd (hq.symm.trans hvalue) hq0
    · rw [setThread_of_ne s _ hne'] at hq
      exact .inr ⟨hne', hq⟩
  have hreach : ∀ u q, ((s.setThread t { s.thread t with pc := .store p }).thread u).Reaches q →
      (s.thread u).Reaches q := by
    intro u q hq
    obtain rfl | hne' := eq_or_ne u t
    · rw [setThread_self] at hq
      exact hq
    · rwa [setThread_of_ne s _ hne'] at hq
  constructor
  case bump => exact h.bump
  case ok =>
    intro u
    obtain rfl | hne' := eq_or_ne u t
    · rw [setThread_self]
      exact (h.ok u).goto (fun _ => hbusy) ⟨hvalue, hne⟩
    · rw [setThread_of_ne s _ hne']
      exact h.ok u
  case live =>
    intro u q hq
    obtain ⟨-, rfl⟩ | ⟨-, hq⟩ := hheld u q hq
    · exact hlive
    · exact h.live u q hq
  case single =>
    intro u v q hu hv
    obtain ⟨rfl, rfl⟩ | ⟨-, hu'⟩ := hheld u q hu
    · obtain ⟨rfl, -⟩ | ⟨-, hv'⟩ := hheld v q hv
      · rfl
      · exact absurd hv' (hnone v)
    · obtain ⟨-, rfl⟩ | ⟨-, hv'⟩ := hheld v q hv
      · exact absurd hu' (hnone u)
      · exact h.single u v q hu' hv'
  case left => exact fun u q hq => h.left u q (hreach u q hq)
  case alone => exact fun u v q hu hv => h.alone u v q (hreach u q hu) (hreach v q hv)

/-- The thread local is set once the thread that gave the block back is gone. -/
theorem install (h : Inv sz s free) (hpc : (s.thread t).pc = .store p)
    (hgone : ∀ u, (s.thread u).cleaned = true → ¬(s.thread u).Reaches p) :
    Inv sz (s.setThread t { s.thread t with value := p, pc := .checkTsd }) free := by
  have hheld : (s.thread t).Holds p := .inl hpc
  have hpoint := (h.ok t).point
  rw [hpc] at hpoint
  obtain ⟨hvalue, hne⟩ := hpoint
  obtain ⟨hclean, hkeys⟩ := (h.ok t).fresh hvalue
  have hbusy := (h.ok t).present (by rw [hpc]; exact Pc.noConfusion)
  have hsame : ∀ u q,
      ((s.setThread t { s.thread t with value := p, pc := .checkTsd }).thread u).Holds q →
        (s.thread u).Holds q := by
    intro u q hq
    obtain rfl | hne' := eq_or_ne u t
    · rw [setThread_self] at hq
      obtain hq | ⟨rfl, -, -⟩ := hq
      · exact Pc.noConfusion hq
      · exact hheld
    · rwa [setThread_of_ne s _ hne'] at hq
  have hreach : ∀ u q,
      ((s.setThread t { s.thread t with value := p, pc := .checkTsd }).thread u).Reaches q →
        u = t ∧ q = p ∨ u ≠ t ∧ (s.thread u).Reaches q := by
    intro u q hq
    obtain rfl | hne' := eq_or_ne u t
    · rw [setThread_self] at hq
      exact .inl ⟨rfl, hq.2.1.symm⟩
    · rw [setThread_of_ne s _ hne'] at hq
      exact .inr ⟨hne', hq⟩
  -- another thread that reaches the block has cleaned up, or it would hold it
  have honly : ∀ u, (s.thread u).Reaches p → u = t := by
    intro u hu
    cases hcleaned : (s.thread u).cleaned with
    | true => exact absurd hu (hgone u hcleaned)
    | false => exact h.single u t p (hu.holds hcleaned) hheld
  constructor
  case bump => exact h.bump
  case ok =>
    intro u
    obtain rfl | hne' := eq_or_ne u t
    · rw [setThread_self]
      exact ⟨fun h => absurd h hne, fun k hk => absurd (hkeys k) hk, (h.ok u).once,
        fun _ => hbusy, hne, hclean, hkeys⟩
    · rw [setThread_of_ne s _ hne']
      exact h.ok u
  case live => exact fun u q hq => h.live u q (hsame u q hq)
  case single => exact fun u v q hu hv => h.single u v q (hsame u q hu) (hsame v q hv)
  case left =>
    intro u q hq
    obtain ⟨-, rfl⟩ | ⟨-, hq'⟩ := hreach u q hq
    · exact List.mem_map_of_mem (List.mem_append_left _ (h.live t _ hheld))
    · exact h.left u q hq'
  case alone =>
    intro u v q hu hv
    obtain ⟨rfl, rfl⟩ | ⟨-, hu'⟩ := hreach u q hu
    · obtain ⟨rfl, -⟩ | ⟨-, hv'⟩ := hreach v q hv
      · rfl
      · exact (honly v hv').symm
    · obtain ⟨rfl, rfl⟩ | ⟨-, hv'⟩ := hreach v q hv
      · exact honly u hu'
      · exact h.alone u v q hu' hv'

/-- The end of `free_thread_cache`. -/
theorem giveBack (h : Inv sz s free) (hpc : (s.thread t).pc = .cleanUp p) :
    Inv sz (State.setThread (s.setBump (s.shared.bump.dealloc (p, sz.threadCache))) t
      { s.thread t with pc := .idle, cleaned := true }) ((p, sz.threadCache) :: free) := by
  have hpoint := (h.ok t).point
  rw [hpc] at hpoint
  obtain ⟨hvalue, hne, hclean, hkeys⟩ := hpoint
  have hheld : (s.thread t).Holds p := .inr ⟨hvalue, hne, hclean⟩
  have hlive := h.live t p hheld
  have hstill : ∀ u q, ((State.setThread (s.setBump (s.shared.bump.dealloc (p, sz.threadCache))) t
      { s.thread t with pc := .idle, cleaned := true }).thread u).Holds q →
        q ≠ p ∧ (s.thread u).Holds q := by
    intro u q hq
    obtain rfl | hne' := eq_or_ne u t
    · rw [setThread_self] at hq
      obtain hq | ⟨-, -, hq⟩ := hq
      · exact Pc.noConfusion hq
      · exact Bool.noConfusion hq
    · rw [setThread_of_ne _ _ hne'] at hq
      refine ⟨?_, hq⟩
      rintro rfl
      exact hne' (h.single u t _ hq hheld)
  have hreach : ∀ u q, ((State.setThread (s.setBump (s.shared.bump.dealloc (p, sz.threadCache))) t
      { s.thread t with pc := .idle, cleaned := true }).thread u).Reaches q →
        (s.thread u).Reaches q := by
    intro u q hq
    obtain rfl | hne' := eq_or_ne u t
    · rwa [setThread_self] at hq
    · rwa [setThread_of_ne _ _ hne'] at hq
  constructor
  case bump => exact h.bump.push hlive
  case ok =>
    intro u
    obtain rfl | hne' := eq_or_ne u t
    · rw [setThread_self]
      exact ⟨fun h => absurd (hvalue.symm.trans h) hne, fun k hk => absurd (hkeys k) hk,
        (h.ok u).once, fun h => absurd rfl h, trivial⟩
    · rw [setThread_of_ne _ _ hne']
      exact h.ok u
  case live =>
    intro u q hq
    obtain ⟨hqp, hq'⟩ := hstill u q hq
    refine (List.mem_erase_of_ne ?_).mpr (h.live u q hq')
    exact fun heq => hqp (congrArg Prod.fst heq)
  case single =>
    exact fun u v q hu hv => h.single u v q (hstill u q hu).2 (hstill v q hv).2
  case left =>
    intro u q hq
    have hmem := h.left u q (hreach u q hq)
    have hperm : (s.shared.bump.live.erase (p, sz.threadCache) ++
        (p, sz.threadCache) :: free).Perm (s.shared.bump.live ++ free) := by
      refine List.perm_middle.trans ?_
      exact ((List.perm_cons_erase hlive).symm.append_right free)
    exact (hperm.map Prod.fst).symm.subset hmem
  case alone => exact fun u v q hu hv => h.alone u v q (hreach u q hu) (hreach v q hv)

end Inv

/-- Going to a point that takes no block. -/
theorem Thread.Ok.follows (ok : th.Ok) {c : Pc} (present : c ≠ .idle → th.phase ≠ .exited)
    (point : th.At c) (hstore : ∀ p, c ≠ .store p) : th.Follows { th with pc := c } where
  ok := ok.goto present point
  value := rfl
  phase := id
  holds p hp := .inr (hp.resolve_left (hstore p))

/-- The actions that neither take a block nor give one back. -/
theorem act_follows (ok : th.Ok) {start : Nat} {sh sh' : Shared}
    (hact : act sz start sh th = some (sh', th')) (hbox : th.pc ≠ .boxNew)
    (hstore : ∀ p, th.pc ≠ .store p) (hclean : ∀ p, th.pc ≠ .cleanUp p) :
    sh'.bump = sh.bump ∧ th.Follows th' := by
  have point := ok.point
  have present := ok.present
  cases hpc : th.pc with
  | idle =>
      rw [act, hpc] at hact
      cases hact
  | load =>
      rw [hpc] at point present
      have present := present Pc.noConfusion
      simp only [act, hpc] at hact
      split at hact
      · next hne =>
          obtain ⟨⟩ := hact
          exact ⟨rfl, ok.follows (fun _ => present) ⟨rfl, hne, point⟩ (fun _ => Pc.noConfusion)⟩
      · next hne =>
          obtain ⟨⟩ := hact
          exact ⟨rfl, ok.follows (fun _ => present) (not_not.mp hne) (fun _ => Pc.noConfusion)⟩
  | boxNew => exact absurd hpc hbox
  | store p => exact absurd hpc (hstore p)
  | checkTsd =>
      rw [hpc] at point present
      have present := present Pc.noConfusion
      simp only [act, hpc] at hact
      split at hact
      · obtain ⟨⟩ := hact
        exact ⟨rfl, ok.follows (fun _ => present) point (fun _ => Pc.noConfusion)⟩
      · obtain ⟨⟩ := hact
        exact ⟨rfl, ok.follows (fun _ => present) point (fun _ => Pc.noConfusion)⟩
  | registerKey =>
      rw [hpc] at point present
      simp only [act, hpc] at hact
      obtain ⟨⟩ := hact
      exact ⟨rfl, ok.follows (fun _ => present Pc.noConfusion) point (fun _ => Pc.noConfusion)⟩
  | setTsd =>
      rw [hpc] at point present
      simp only [act, hpc] at hact
      obtain ⟨⟩ := hact
      exact ⟨rfl, ok.follows (fun _ => present Pc.noConfusion) point (fun _ => Pc.noConfusion)⟩
  | saveTls =>
      rw [hpc] at point present
      have present := present Pc.noConfusion
      obtain ⟨hne, hnot, hkeys⟩ := point
      simp only [act, hpc] at hact
      obtain ⟨⟩ := hact
      -- the key now has the thread's block, and no other key has a value
      have hkey : ∀ k, Function.update th.specific sh.pkey th.value k ≠ 0 → k = sh.pkey := by
        intro k hk
        by_contra hother
        rw [Function.update_of_ne hother] at hk
        exact hk (hkeys k)
      refine ⟨rfl, ⟨fun h => absurd h hne, ?_, ?_, fun _ => present, rfl, hne, hnot⟩, rfl, id, ?_⟩
      · intro k hk
        obtain rfl := hkey k hk
        exact ⟨Function.update_self _ _ _, hnot⟩
      · intro k k' hk hk'
        exact (hkey k hk).trans (hkey k' hk').symm
      · exact fun q hq => .inr (hq.resolve_left Pc.noConfusion)
  | inUse p =>
      simp only [act, hpc] at hact
      obtain ⟨⟩ := hact
      exact ⟨rfl, ok.follows (fun h => absurd rfl h) trivial (fun _ => Pc.noConfusion)⟩
  | cleanUp p => exact absurd hpc (hclean p)

theorem rounded_threadCache (sz : Sizes) : rounded sz sz.threadCache = sz.threadCache := by
  have hpos := sz.pos
  rw [rounded, Nat.add_sub_assoc hpos, Nat.add_div_left _ hpos,
    Nat.div_eq_of_lt (Nat.sub_lt hpos Nat.one_pos), Nat.zero_add, Nat.one_mul]

theorem callable_threadCache {start : Nat} (hmaps : Maps bump.owned start) :
    Callable bump .mapped sz.threadCache start :=
  ⟨sz.pos, sz.bound.trans_lt (by decide), fun _ => hmaps⟩

namespace Inv

theorem act (h : Inv sz s free) {start : Nat} {sh : Shared}
    (hmaps : (s.thread t).pc = .boxNew → Maps s.shared.bump.owned start)
    (hact : Tls.act sz start s.shared (s.thread t) = some (sh, th))
    (horder : Orderly sz s (.act t start)) :
    ∃ free', Inv sz (State.setThread { s with shared := sh } t th) free' := by
  cases hpc : (s.thread t).pc with
  | boxNew =>
      have hfits : Fits s.shared.bump .mapped sz sz.threadCache := by
        simpa only [Orderly, hpc] using horder
      obtain ⟨p, free', hp, hne, hlive, hnone, hinv⟩ :=
        h.alloc (callable_threadCache (hmaps hpc)) hfits
      simp only [Tls.act, hpc, hp, Option.some.injEq, Prod.mk.injEq] at hact
      obtain ⟨rfl, rfl⟩ := hact
      rw [rounded_threadCache] at hlive
      exact ⟨free', hinv.take hpc hne hlive hnone⟩
  | store p =>
      have hgone : ∀ u, (s.thread u).cleaned = true → ¬(s.thread u).Reaches p := by
        simpa only [Orderly, hpc] using horder
      simp only [Tls.act, hpc] at hact
      obtain ⟨⟩ := hact
      exact ⟨free, h.install hpc hgone⟩
  | cleanUp p =>
      simp only [Tls.act, hpc] at hact
      obtain ⟨⟩ := hact
      exact ⟨_, h.giveBack hpc⟩
  | _ =>
      obtain ⟨hbump, follows⟩ := act_follows (h.ok t) hact (by rw [hpc]; exact Pc.noConfusion)
        (by intro p; rw [hpc]; exact Pc.noConfusion) (by intro p; rw [hpc]; exact Pc.noConfusion)
      exact ⟨free, h.follow hbump (follows_setThread h.ok follows)⟩

/-- A destructor starts with the value of its key, which is the thread's block. -/
theorem destructor (h : Inv sz s free) {key : Nat} (hphase : (s.thread t).phase = .dying)
    (hkey : (s.thread t).specific key ≠ 0) :
    (s.thread t).Follows { s.thread t with
      specific := Function.update (s.thread t).specific key 0
      pc := .cleanUp ((s.thread t).specific key) } := by
  have ok := h.ok t
  obtain ⟨hvalue, hnot⟩ := ok.key key hkey
  have hkeys : ∀ k, Function.update (s.thread t).specific key 0 k = 0 := by
    intro k
    obtain rfl | hne := eq_or_ne k key
    · exact Function.update_self _ _ _
    · rw [Function.update_of_ne hne]
      by_contra hk
      exact hne (ok.once k key hk hkey)
  refine ⟨⟨?_, ?_, ?_, ?_, ?_⟩, rfl, id, fun q hq => .inr (hq.resolve_left Pc.noConfusion)⟩
  · exact fun h => absurd (hvalue.trans h) hkey
  · exact fun k hk => absurd (hkeys k) hk
  · exact fun k k' hk => absurd (hkeys k) hk
  · intro _
    simp [hphase]
  · exact ⟨hvalue.symm, hkey, hnot, hkeys⟩

theorem step (h : Inv sz s free) (hstep : OrderlyStep sz s m s') : ∃ free', Inv sz s' free' := by
  obtain ⟨hstep, horder⟩ := hstep
  cases hstep with
  | @call t hpc hphase =>
      refine ⟨free, h.follow rfl (follows_setThread h.ok ?_)⟩
      exact (h.ok t).follows (fun _ => hphase) horder (fun _ => Pc.noConfusion)
  | act hmaps hact => exact h.act hmaps hact horder
  | store hblock hlo hhi =>
      exact ⟨free, h.store (h.live _ _ ((h.ok _).holds_of_block hblock)) hlo hhi⟩
  | @exit t hpc hphase =>
      refine ⟨free, h.follow rfl (follows_setThread h.ok ?_)⟩
      have ok := h.ok t
      refine ⟨⟨ok.fresh, ok.key, ok.once, fun _ => Phase.noConfusion, ok.point⟩, rfl, fun _ => ?_,
        fun _ hq => hq⟩
      rw [hphase]
      exact Phase.noConfusion
  | destructor hpc hphase hkey =>
      exact ⟨free, h.follow rfl (follows_setThread h.ok (h.destructor hphase hkey))⟩
  | @gone t hpc hphase =>
      refine ⟨free, h.follow rfl (follows_setThread h.ok ?_)⟩
      have ok := h.ok t
      exact ⟨⟨ok.fresh, ok.key, ok.once, fun hbusy => absurd hpc hbusy, ok.point⟩, rfl,
        fun hex => absurd rfl hex, fun _ hq => hq⟩
  | alloc hcall =>
      obtain ⟨-, free', -, -, -, -, hinv⟩ := h.alloc hcall horder
      exact ⟨free', hinv⟩
  | @dealloc block hmem hnone =>
      refine ⟨block :: free, h.setBump (h.bump.push hmem) ?_ ?_⟩
      · intro t p hp
        refine (List.mem_erase_of_ne ?_).mpr (h.live t p hp)
        rintro rfl
        exact hnone t hp
      · intro q hq
        have hperm : (s.shared.bump.live.erase block ++ block :: free).Perm
            (s.shared.bump.live ++ free) :=
          List.perm_middle.trans ((List.perm_cons_erase hmem).symm.append_right free)
        exact (hperm.map Prod.fst).symm.subset hq
  | write hmem hnone hlo hhi => exact ⟨free, h.store hmem hlo hhi⟩

end Inv

theorem inv_new (sz : Sizes) (mem : Mem) : Inv sz (State.new mem) [] := by
  have hidle : ∀ t p, ¬((State.new mem).thread t).Holds p := by
    rintro t p (h | ⟨h, hne, -⟩)
    · exact Pc.noConfusion h
    · exact hne h.symm
  have hnull : ∀ t p, ¬((State.new mem).thread t).Reaches p := fun t p h => h.2.2 h.2.1.symm
  constructor
  case bump => exact MetaBump.inv_start (.mapped mem)
  case ok =>
    intro t
    exact ⟨fun _ => ⟨rfl, fun _ => rfl⟩, fun k hk => absurd rfl hk, fun k _ hk => absurd rfl hk,
      fun h => absurd rfl h, trivial⟩
  case live => exact fun t p hp => absurd hp (hidle t p)
  case single => exact fun t u p hp => absurd hp (hidle t p)
  case left => exact fun t p hp => absurd hp (hnull t p)
  case alone => exact fun t u p hp => absurd hp (hnull t p)

/-- Where the links lead is on the list. -/
theorem mem_of_segment {next : Nat → Nat} {a b : Nat} {l full : List Nat}
    (hfull : Segment next a full 0) (h : Segment next a l b) (hzero : 0 ∉ l) (hb : b ≠ 0) :
    b ∈ full := by
  induction l generalizing a full with
  | nil =>
      obtain rfl : a = b := h
      obtain ⟨rest, rfl, -⟩ := hfull.exists_cons hb
      exact List.mem_cons_self
  | cons x l ih =>
      obtain ⟨rfl, h⟩ := h
      obtain ⟨rest, rfl, hrest⟩ := hfull.exists_cons fun h => hzero (by simp [h])
      exact List.mem_cons_of_mem _ (ih hrest h fun hmem => hzero (List.mem_cons_of_mem _ hmem))

theorem Inv.apart (h : Inv sz s free) {p q : Nat}
    (hp : p ∈ (s.shared.bump.live ++ free).map Prod.fst)
    (hq : q ∈ (s.shared.bump.live ++ free).map Prod.fst) (hne : p ≠ q) :
    Apart (p, sz.threadCache) (q, sz.threadCache) := by
  obtain ⟨x, hx, rfl⟩ := List.mem_map.mp hp
  obtain ⟨y, hy, rfl⟩ := List.mem_map.mp hq
  have : Std.Symm Apart := ⟨fun _ _ => MetaBump.apart_symm⟩
  have hxy : Apart x y := h.bump.apart.forall hx hy fun heq => hne (congrArg Prod.fst heq)
  have hwx := h.bump.unit x hx
  have hwy := h.bump.unit y hy
  simp only [Apart] at hxy ⊢
  omega

theorem Inv.owned (h : Inv sz s free) : Owned sz s where
  unshared t u p q hne hp hq := by
    refine h.apart (h.left t p hp) (h.left u q hq) ?_
    rintro rfl
    exact hne (h.alone t u p hp hq)
  unlisted t p q hp hq := by
    obtain ⟨l, hl, hzero, hq0⟩ := hq
    have hlive := h.live t p hp
    have hfree : q ∈ free.map Prod.fst := mem_of_segment h.bump.chain hl hzero hq0
    refine h.apart (List.mem_map_of_mem (List.mem_append_left _ hlive)) ?_ ?_
    · rw [List.map_append]
      exact List.mem_append_right _ hfree
    · rintro rfl
      obtain ⟨y, hy, rfl⟩ := List.mem_map.mp hfree
      have hapart := (List.pairwise_append.mp h.bump.apart).2.2 _ hlive y hy
      have hpos := sz.pos
      have hwidth := h.bump.unit y (List.mem_append_right _ hy)
      simp only [Apart] at hapart
      omega

/-- Whatever the order in which threads start, use their caches and exit: as long as no thread
uses its cache after its clean-up and none gets a block whose last thread is still there, every
thread has its cache for itself. -/
theorem caches_owned {mem : Mem} {tr : List Move}
    (run : Transition.Run (OrderlyStep sz) (State.new mem) tr s) : Owned sz s := by
  obtain ⟨free, h⟩ := run.invariant (I := fun s => ∃ free, Inv sz s free) ⟨[], inv_new sz mem⟩
    fun _ _ _ ⟨_, hu⟩ hstep => hu.step hstep
  exact h.owned

/-- The next action of a thread, whatever the state says of it. -/
theorem step_setThread {start : Nat} {sh : Shared}
    (hmaps : th.pc = .boxNew → Maps s.shared.bump.owned start)
    (hact : act sz start s.shared th = some (sh, th')) :
    Step sz (s.setThread t th) (.act t start) (State.setThread { s with shared := sh } t th') := by
  have hself := setThread_self s t th
  have hstep : Step sz (s.setThread t th) (.act t start) _ :=
    .act (fun h => hmaps (hself ▸ h)) (hself.symm ▸ hact)
  simpa [State.setThread] using hstep

/-- The first use of a cache up to the point where the thread local is set. -/
theorem first_use (sz : Sizes) (s : State) (t start p : Nat) (hpc : (s.thread t).pc = .idle)
    (hphase : (s.thread t).phase ≠ .exited) (hclean : (s.thread t).cleaned = false)
    (hvalue : (s.thread t).value = 0) (hmaps : Maps s.shared.bump.owned start)
    (hfits : Fits s.shared.bump .mapped sz sz.threadCache)
    (hp : (s.shared.bump.metaBump.alloc .mapped sz s.shared.bump.mem sz.threadCache start).2 =
      some p)
    (hgone : ∀ u, u ≠ t → (s.thread u).cleaned = true → ¬(s.thread u).Reaches p) :
    Transition.Run (OrderlyStep sz) s [.call t, .act t 0, .act t start, .act t 0]
      (State.setThread (s.setBump (s.shared.bump.alloc .mapped sz sz.threadCache start)) t
        { s.thread t with pc := .checkTsd, value := p }) := by
  have hcall : OrderlyStep sz s (.call t) (s.setThread t { s.thread t with pc := .load }) :=
    ⟨.call hpc hphase, hclean⟩
  have hload : Step sz (s.setThread t { s.thread t with pc := .load }) (.act t 0)
      (s.setThread t { s.thread t with pc := .boxNew }) :=
    step_setThread (fun h => Pc.noConfusion h) (by simp [act, hvalue])
  have hbox : Step sz (s.setThread t { s.thread t with pc := .boxNew }) (.act t start)
      (State.setThread (s.setBump (s.shared.bump.alloc .mapped sz sz.threadCache start)) t
        { s.thread t with pc := .store p }) :=
    step_setThread (fun _ => hmaps) (by simp [act, hp])
  have hstore : Step sz
      (State.setThread (s.setBump (s.shared.bump.alloc .mapped sz sz.threadCache start)) t
        { s.thread t with pc := .store p }) (.act t 0) _ :=
    step_setThread (fun h => Pc.noConfusion h) rfl
  refine (((Transition.Run.single hcall).snoc ⟨hload, ?_⟩).snoc ⟨hbox, ?_⟩).snoc ⟨hstore, ?_⟩
  · simp [Orderly]
  · simp only [Orderly, setThread_self]
    exact hfits
  · simp only [Orderly, setThread_self]
    intro u hu
    obtain rfl | hne := eq_or_ne u t
    · rw [setThread_self] at hu
      exact absurd (hclean.symm.trans hu) Bool.false_ne_true
    · rw [setThread_of_ne _ _ hne] at hu ⊢
      exact hgone u hne hu

/-- While one thread has its cache, the block that another one gave back when it exited becomes
the cache of a third. -/
theorem caches_owned_recycled :
    ∃ tr s, Transition.Run (OrderlyStep MetaBump.mappedSizes) (State.new fun _ => 0) tr s ∧
      (s.thread 1).Reaches 0x7f0003fff800 ∧ (s.thread 2).Reaches 0x7f0003fff000 ∧
      (s.thread 0).value = 0x7f0003fff000 ∧ Owned MetaBump.mappedSizes s := by
  have r := first_use MetaBump.mappedSizes (State.new fun _ => 0) 1 0x7f0000000000
    0x7f0003fff800 rfl Phase.noConfusion rfl rfl
    ⟨by decide, by decide, fun r hr => absurd hr List.not_mem_nil⟩ (by decide) (by decide)
    fun u _ hu => Bool.noConfusion hu
  have r := r.trans (first_use MetaBump.mappedSizes _ 0 0x7e0000000000 0x7f0003fff000 rfl
    Phase.noConfusion rfl rfl ⟨by decide, by decide, by decide⟩ (by decide) (by decide)
    fun u _ hu => by
      obtain rfl | hne := eq_or_ne u 1
      · exact Bool.noConfusion hu
      · rw [setThread_of_ne _ _ hne] at hu
        exact Bool.noConfusion hu)
  -- the key of the clean-up is registered
  have r := r.snoc ⟨@Step.act _ _ 0 0 _ _ (fun h => Pc.noConfusion h) rfl, trivial⟩
  have r := r.snoc ⟨@Step.act _ _ 0 0 _ _ (fun h => Pc.noConfusion h) rfl, trivial⟩
  have r := r.snoc ⟨@Step.act _ _ 0 0 _ _ (fun h => Pc.noConfusion h) rfl, trivial⟩
  have r := r.snoc ⟨@Step.act _ _ 0 0 _ _ (fun h => Pc.noConfusion h) rfl, trivial⟩
  have r := r.snoc ⟨@Step.act _ _ 0 0 _ _ (fun h => Pc.noConfusion h) rfl, trivial⟩
  -- the thread exits
  have r := r.snoc ⟨@Step.exit _ _ 0 rfl rfl, trivial⟩
  have r := r.snoc ⟨@Step.destructor _ _ 0 0 rfl rfl (by decide), trivial⟩
  have r := r.snoc ⟨@Step.act _ _ 0 0 _ _ (fun h => Pc.noConfusion h) rfl, trivial⟩
  have r := r.snoc ⟨@Step.gone _ _ 0 rfl rfl, trivial⟩
  have r := r.trans (first_use MetaBump.mappedSizes _ 2 0x7e0000000000 0x7f0003fff000 rfl
    Phase.noConfusion rfl rfl ⟨by decide, by decide, by decide⟩ (by decide) (by decide)
    fun u _ hu => by
      by_cases hzero : u = 0
      · subst hzero
        exact fun hreaches => hreaches.1 (by decide)
      · have hone : u ≠ 1 := by
          rintro rfl
          exact absurd hu (by decide)
        simp only [State.setThread, Function.update_of_ne hzero, State.setBump,
          Function.update_of_ne hone] at hu
        exact Bool.noConfusion hu)
  exact ⟨_, _, r, ⟨Phase.noConfusion, rfl, by decide⟩, ⟨Phase.noConfusion, rfl, by decide⟩, rfl,
    caches_owned r⟩

end UniAlloc.Tls
