import UniAlloc.FixedHeap.Runs

/-!
# Pages are conserved

The pages given to `BUMP` are in use, on the lists, or not handed out yet. A freed block that
is longer than the runs of the lists is lost, and so is the count when `BUMP` hands out more
than the heap has left.
-/

namespace UniAlloc.FixedHeap

open FreeList (PG_SIZE BumpAlloc)
open MetaBump (Sizes fixedSizes)
open Slab (PAGE_SIZE)

/-- The pages that `BUMP` has not handed out. -/
def State.unbumped (s : State) : Nat := (s.heap.bump.checkPoint - s.heap.bump.current) / PG_SIZE

/-- No page given to `BUMP` is lost; `L` is what the lists contain. -/
def Conserved (s : State) : Prop :=
  ∃ L, Threaded s.heap.array s.heap.mem s.heap.lists L ∧
    s.given = s.livePages.card + (freePages L).card + s.unbumped

/-- The steps in which no page is lost. -/
def ListedStep (s : State) (m : Move) (t : State) : Prop := SoundStep s m t ∧ Listed s m

variable {sz : Sizes} {s t : State} {m : Move} {L : Nat → List Nat} {lost : Multiset Nat}
  {first cur : Nat}

theorem Inv.given_eq (inv : Inv s L lost first cur) : s.given = cur - first + s.unbumped := by
  have hinside := inv.inside
  have hle := inv.le
  have hbase := inv.base_le
  have hcount := s.heap.count_mul_le
  simp only [State.given, State.unbumped, inv.metaEnd, inv.current, ArrayNode.pageAddr,
    State.base, PG_SIZE, PAGE_SIZE] at hbase hcount ⊢
  obtain rfl | hlt := hle.eq_or_lt
  · omega
  · have := hinside hlt
    omega

theorem Inv.card_total (inv : Inv s L lost first cur) :
    s.livePages.card + (freePages L).card + lost.card = cur - first := by
  have hcard := congrArg Multiset.card inv.total
  rw [Multiset.card_add, Multiset.card_add] at hcard
  exact hcard.trans (Nat.card_Ico _ _)

/-- The count is right exactly when nothing is lost. -/
theorem Inv.conserved_iff (inv : Inv s L lost first cur) : Conserved s ↔ lost = 0 := by
  have hcard := inv.card_total
  have hgiven := inv.given_eq
  constructor
  · rintro ⟨L', hL', hsum⟩
    rw [hL'.unique inv.rep.threaded] at hsum
    exact Multiset.card_eq_zero.mp (by omega)
  · rintro rfl
    refine ⟨L, inv.rep.threaded, ?_⟩
    rw [Multiset.card_zero] at hcard
    omega

theorem conserved_of_reachable (h : Transition.Reachable (PlacedStart sz) ListedStep s) :
    ∃ L first cur, Inv s L 0 first cur := by
  refine h.invariant (I := fun s => ∃ L first cur, Inv s L 0 first cur) ?_ ?_
  · intro s hs
    obtain ⟨first, inv⟩ := inv_start hs
    exact ⟨_, _, _, inv⟩
  · intro u m v hu hstep
    obtain ⟨L, first, cur, inv⟩ := hu
    obtain ⟨L', lost', cur', inv', -, -, hlost⟩ := inv.step hstep.1
    obtain rfl := hlost hstep.2
    exact ⟨L', first, cur', inv'⟩

theorem allocFixed_of_ok {bump bump' : BumpAlloc} {size p : Nat}
    (h : PageBump.allocFixed bump size = (bump', .ok p)) :
    bump' = ⟨bump.checkPoint, bump.current + BumpAlloc.allocSize size⟩ ∧ p = bump.current := by
  rw [PageBump.allocFixed] at h
  split at h
  · cases h
  · split at h
    · next newPtr hadd =>
        cases h
        rw [PageBump.checkedAdd] at hadd
        split at hadd
        · cases hadd
          exact ⟨rfl, rfl⟩
        · cases hadd
    · cases h

/-- A request that wraps gets more pages than there are. -/
theorem Inv.not_conserved_of_not_fits {size p : Nat} {h : Heap} (inv : Inv s L 0 first cur)
    (hpos : 0 < size) (hlt : size < 2 ^ 63) (hfits : ¬s.heap.Fits size)
    (hcall : s.heap.alloc size = some (h, .ok p)) :
    ¬Conserved { s with heap := h, live := ⟨p, originSize size + 1⟩ ::ₘ s.live } := by
  obtain ⟨hserved, hlarge⟩ := not_or.mp hfits
  obtain ⟨hserved', -⟩ | ⟨-, hcall'⟩ := inv.rep.alloc_spec size
  · exact absurd hserved' hserved
  have hheap := Option.some.inj (hcall.symm.trans hcall')
  rw [Heap.allocBump] at hheap
  rcases hbump : PageBump.allocFixed s.heap.bump size with ⟨bump', r⟩
  rw [hbump] at hheap
  cases hheap
  obtain ⟨rfl, rfl⟩ := allocFixed_of_ok hbump
  rintro ⟨L', hL', hsum⟩
  have hfree : freePages L' = freePages L := hL'.unique inv.rep.threaded
  have hcard := inv.card_total
  have hgiven := inv.given_eq
  rw [hfree] at hsum
  rw [Heap.allocSize_eq hpos hlt] at hsum hlarge
  simp only [State.given, State.unbumped, State.livePages, State.base, pagesOf_cons,
    Multiset.card_add, Span.card_pages, Block.span, Multiset.card_zero, PG_SIZE, PAGE_SIZE]
    at hsum hcard hgiven hlarge
  omega

/-- A request that wraps does not fail. -/
theorem Inv.not_exhausted_of_not_fits {size : Nat} {h : Heap} {e : PageBump.AllocError}
    (inv : Inv s L 0 first cur) (hlt : size < 2 ^ 63) (hfits : ¬s.heap.Fits size)
    (hcall : s.heap.alloc size = some (h, .error e)) : False := by
  obtain ⟨hserved, hlarge⟩ := not_or.mp hfits
  obtain ⟨hserved', -⟩ | ⟨-, hcall'⟩ := inv.rep.alloc_spec size
  · exact hserved hserved'
  have hheap := Option.some.inj (hcall.symm.trans hcall')
  have hcurrent := inv.current_lt
  have hle := PageBump.allocSize_le hlt
  have hcheck := inv.checkPoint_lt
  have hsub : PageBump.wrappingSub s.heap.bump.checkPoint (BumpAlloc.allocSize size) =
      2 ^ 64 + s.heap.bump.checkPoint - BumpAlloc.allocSize size := by
    rw [PageBump.wrappingSub, Nat.mod_eq_of_lt (by omega)]
  rw [Heap.allocBump, PageBump.allocFixed, hsub, if_neg (by omega),
    PageBump.checkedAdd_of_lt (by omega)] at hheap
  cases hheap

/-- In every run in which each request fits and no freed block is too long for the lists all
pages are accounted for, and the next request or freed block keeps it so exactly if it is like
that. -/
theorem pages_conserved (h : Transition.Reachable (PlacedStart sz) ListedStep s) :
    Conserved s ∧ (∀ size t, Step s (.alloc size) t → (Conserved t ↔ s.heap.Fits size)) ∧
      ∀ b size t, Step s (.free b size) t → Sound s (.free b size) →
        (Conserved t ↔ Listed s (.free b size)) := by
  obtain ⟨L, first, cur, inv⟩ := conserved_of_reachable h
  have conserved : Conserved s := inv.conserved_iff.mpr rfl
  refine ⟨conserved, fun size t hstep => ?_, fun b size t hstep hsound => ?_⟩
  · have hfitting : s.heap.Fits size → Conserved t := fun hfits => by
      obtain ⟨L', lost', cur', inv', -, -, hlost⟩ := inv.step (m := .alloc size) ⟨hstep, hfits⟩
      exact inv'.conserved_iff.mpr (hlost trivial)
    refine ⟨fun hconserved => ?_, hfitting⟩
    by_contra hfits
    cases hstep with
    | alloc hpos hlt hcall => exact inv.not_conserved_of_not_fits hpos hlt hfits hcall hconserved
    | exhausted hpos hlt hcall => exact inv.not_exhausted_of_not_fits hlt hfits hcall
  · have hlisted : Listed s (.free b size) ↔ b.num ≤ BACKEND_MAX_PAGE := Iff.rfl
    cases hstep with
    | free hb hsize hcall =>
        obtain ⟨h', hcall', -, -, -, inv'⟩ := inv.free hb hsize hsound
        cases hcall.symm.trans hcall'
        rw [inv'.conserved_iff, hlisted]
        split
        · next hle => exact iff_of_true rfl hle
        · next hlt =>
            refine iff_of_false (fun hzero => ?_) hlt
            have hcard := congrArg Multiset.card hzero
            rw [Multiset.card_add, Span.card_pages] at hcard
            have hnum : b.num = 0 := Nat.eq_zero_of_add_eq_zero_right hcard
            exact hlt (hnum.trans_le (Nat.zero_le _))

/-- The heap of 64 pages. -/
theorem starts_sixtyFour : PlacedStart fixedSizes (fresh (fun _ => 0) 64) :=
  fresh_starts (by decide) (by decide) (by decide) fun _ _ => (by decide : 0 ≤ asI64 0)

theorem pages_conserved_two_blocks :
    Conserved (freshUsed (fun _ => 0) 64 2) ∧
      (∀ size t, Step (freshUsed (fun _ => 0) 64 2) (.alloc size) t →
        (Conserved t ↔ (freshUsed (fun _ => 0) 64 2).heap.Fits size)) ∧
      ∀ b size t, Step (freshUsed (fun _ => 0) 64 2) (.free b size) t →
        Sound (freshUsed (fun _ => 0) 64 2) (.free b size) →
        (Conserved t ↔ Listed (freshUsed (fun _ => 0) 64 2) (.free b size)) :=
  pages_conserved ⟨_, [.alloc 8192], starts_sixtyFour,
    .single ⟨(fresh_alloc starts_sixtyFour (by decide) (by decide) rfl (by decide)).1, trivial⟩⟩

/-- A block of 33 pages that is freed is lost. -/
theorem long_block_lost : ∃ s t, PlacedStart fixedSizes s ∧
    Transition.Run Step s [.alloc 135168, .free ⟨69632, 33⟩ 135168] t ∧ t.live = 0 ∧
      ¬Conserved t := by
  obtain ⟨hstep, inv⟩ := fresh_alloc (n := 33) starts_sixtyFour (by decide : 0 < 135168)
    (by decide) rfl (by decide)
  have hb : (⟨69632, 33⟩ : Block) ∈ (freshUsed (fun _ => 0) 64 33).live :=
    Multiset.mem_singleton_self _
  obtain ⟨h, hcall, hcount, -, -, inv'⟩ := inv.free hb
    (by decide : originSize 135168 + 1 = 33) fun heq => absurd heq (by decide)
  refine ⟨_, _, starts_sixtyFour, (Transition.Run.single hstep.1).snoc (.free hb (by decide) hcall),
    Multiset.erase_singleton _, ?_⟩
  rw [inv'.conserved_iff, if_neg (by decide)]
  intro hzero
  have hcard := congrArg Multiset.card hzero
  rw [Multiset.card_add, Span.card_pages] at hcard
  cases hcard

end UniAlloc.FixedHeap
