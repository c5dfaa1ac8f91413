import UniAlloc.Cache.Alignment
import UniAlloc.Store.Basic

/-!
# The allocator as a store

What the program sees of the allocator: the live blocks, and what is in them. Whatever goes
on in lists, rows, rings and trees, a call allocates, frees, writes or resizes one block and
leaves the others as they are.
-/

namespace UniAlloc.Cache

open FreeList Radix Slab Transition
open Store (Event)

variable {ι σ : Type} [DecidableEq ι] [Fintype ι]

/-- The bytes of a block. -/
def shape : Store.Shape Live Nat where
  size block := block.layout.size
  addr block i := block.ptr + i

theorem cell_iff {block : Live} {a : Nat} : shape.Cell block a ↔ block.Byte a :=
  Store.Shape.cell_iff_of_contiguous Live.ptr fun _ _ => rfl

namespace State

/-- What the program sees of the caches. -/
def view (s : State ι σ) : Store.State Live Nat Nat := ⟨s.live, s.heap.mem⟩

/-- The events that a move can stand for. -/
def Answers (b : Build σ) (s : State ι σ) (t : ι) : Move → Event Live Nat → Prop
  -- a call whose unit has no block goes on to the slab allocator, and has no answer yet
  | .allocate layout, e => (∃ ptr, e = .alloc ⟨ptr, layout⟩) ∨
      e = .silent ∧ ∃ idx unit mem, b.classes.getSizeClass layout.size = .base idx ∧
        (s.caches t idx).allocateLocal s.heap.mem layout.align = some (unit, mem, 0)
  | .refill _, e => ∃ idx layout ptr, s.pc t = .refill idx layout ∧ e = .alloc ⟨ptr, layout⟩
  | .deallocate block, e => e = .free block
  | .store block offset v, e => e = .write block offset v
  | .exit, e | .flush, e | .giveBack, e => e = .silent

end State

section Small

variable {b : Build σ} {Holds : σ → Mem → RadixTree → Set Block → Prop} {request : Nat → Prop}
  {s s' : State ι σ} {g g' : Ghost Nat} {nodes nodes' : ι → Nat → List Nat} {t : ι}
  {block : Live} {fits : Live → Prop} {live : Multiset Live}

namespace Inv

omit [DecidableEq ι] in
theorem block_apart (sound : b.Sound Holds request) (inv : Inv b Holds request s g nodes)
    (hlive : s.live = block ::ₘ live) : ∀ c ∈ live, shape.Apart block c := by
  intro c hc a ha ha'
  obtain ⟨rest, rfl⟩ := Multiset.exists_cons_of_mem hc
  obtain ⟨hle, hlt⟩ := cell_iff.mp ha
  obtain ⟨hle', hlt'⟩ := cell_iff.mp ha'
  have := inv.live_disjoint sound hlive
  omega

omit [DecidableEq ι] in
/-- What the units hold can change, and so can what is in no run. -/
theorem same_of_share (sound : b.Sound Holds request) (inv : Inv b Holds request s g nodes)
    {mem : Mem} (t : ι) (k : Nat) (same : ∀ a,
      HeldPage (runs (configs b.classes) s.heap.desc g) (a / PG_SIZE) →
      a ∉ (s.caches t k).share (nodes t k) → mem a = s.heap.mem a) :
    shape.SameOn s.live s.heap.mem mem := by
  intro c hc a ha
  obtain ⟨held, hshare⟩ := inv.live_byte sound hc (cell_iff.mp ha)
  exact same a held (hshare t k)

theorem allocate_answers (sound : b.Sound Holds request) (inv : Inv b Holds request s g nodes)
    (inv' : Inv b Holds request s' g' nodes') {layout : Layout} (hreq : request layout.size)
    (hfits : ∀ o ∈ s'.live, fits o) (hcall : s.allocate b t layout = some s') :
    ∃ e, s.Answers b t (.allocate layout) e ∧ Store.Step shape fits s.view e s'.view := by
  obtain ⟨idx, rounds⟩ := sound.rounds _ hreq
  obtain ⟨unit, mem, ans, l, hlocal, -, hmem, -⟩ :=
    ThreadCacheUnit.allocateLocal_spec (inv.lists t idx) (inv.nodup_share t idx)
      (inv.share_pos sound t idx) layout.align
  have same := inv.same_of_share sound t idx fun a _ ha => hmem a ha
  simp only [State.allocate, rounds.class_eq, if_neg rounds.pos.ne', if_pos rounds.lt, hlocal,
    Option.bind_eq_bind, Option.bind_some] at hcall
  by_cases hans : ans = 0
  · subst hans
    rw [if_neg (not_not.mpr rfl)] at hcall
    cases hcall
    exact ⟨.silent, .inr ⟨rfl, idx, unit, mem, rounds.class_eq, hlocal⟩, .silent same⟩
  · rw [if_pos hans] at hcall
    cases hcall
    exact ⟨.alloc ⟨ans, layout⟩, .inl ⟨ans, rfl⟩, .alloc (hfits _ (Multiset.mem_cons_self _ _))
      (inv'.block_apart sound rfl) same⟩

theorem refill_answers (sound : b.Sound Holds request) (inv : Inv b Holds request s g nodes)
    (inv' : Inv b Holds request s' g' nodes') {idx mapped : Nat} {layout : Layout}
    (hpc : s.pc t = .refill idx layout) (fresh : b.maps s.heap mapped)
    (hfits : ∀ o ∈ s'.live, fits o) (hcall : s.refill b t idx layout mapped = some s') :
    ∃ e, s.Answers b t (.refill mapped) e ∧ Store.Step shape fits s.view e s'.view := by
  obtain ⟨hidx, hreq, -, -⟩ :
      PcOk b.classes request (s.caches t) (nodes t) (.refill idx layout) := hpc ▸ inv.pcs t
  obtain ⟨hclass, -⟩ := sound.isClass hreq hidx
  obtain ⟨⟨slab, heap, batch⟩, hbatch, hcall⟩ := Option.bind_eq_some_iff.mp hcall
  obtain ⟨⟨unit, ans⟩, -, hcall⟩ := Option.bind_eq_some_iff.mp hcall
  have same : shape.SameOn s.live s.heap.mem heap.mem := by
    obtain ⟨_, _, _, _, _, _, _, hbatch', -, granted, -⟩ | ⟨hbatch', -⟩ :=
      sound.batch layout.align inv.slab hclass fresh
    · cases hbatch.symm.trans hbatch'
      exact inv.same_of_share sound t idx fun a ha _ => granted.frame a ha
    · cases hbatch.symm.trans hbatch'
  cases hcall
  exact ⟨.alloc ⟨ans, layout⟩, ⟨idx, layout, ans, hpc, rfl⟩,
    .alloc (hfits _ (Multiset.mem_cons_self _ _)) (inv'.block_apart sound rfl) same⟩

theorem deallocate_answers (sound : b.Sound Holds request) (inv : Inv b Holds request s g nodes)
    (pos : ∀ size, request size → 0 < size) (hblock : block ∈ s.live)
    (hcall : s.deallocate b t block = some s') :
    ∃ e, s.Answers b t (.deallocate block) e ∧ Store.Step shape fits s.view e s'.view := by
  obtain ⟨idx, hidx, hclass, -⟩ := inv.live_chunk sound hblock
  obtain ⟨live, hlive⟩ := Multiset.exists_cons_of_mem hblock
  have hpos := pos _ (inv.live block hblock)
  cases (deallocate_eq hidx hclass).symm.trans hcall
  refine ⟨.free block, rfl, .free hblock fun c hc a ha => Function.update_of_ne ?_ _ _⟩
  rintro rfl
  have hc : c ∈ live := by
    rw [State.view, hlive, Multiset.erase_cons_head] at hc
    exact hc
  exact inv.block_apart sound hlive c hc _ (cell_iff.mpr ⟨le_rfl, by omega⟩) ha

omit [DecidableEq ι] [Fintype ι] in
theorem store_answers (hblock : block ∈ s.live) {offset : Nat}
    (hoffset : offset < block.layout.size) (v : Nat) :
    Store.Step shape fits s.view (.write block offset v) (s.store block offset v).view :=
  .write hblock hoffset (Function.update_self _ _ _) fun _ _ _ _ hne =>
    Function.update_of_ne hne _ _

theorem flush_answers (sound : b.Sound Holds request) (inv : Inv b Holds request s g nodes)
    (idx : Nat) : Store.Step shape fits s.view .silent (s.flush b t idx).view := by
  rw [State.flush]
  split
  · obtain ⟨l, -, -, -, hmem⟩ :=
      ThreadCacheUnit.flush_spec (inv.lists t idx) (inv.nodup_share t idx)
    exact .silent (inv.same_of_share sound t idx fun a _ ha => hmem a ha)
  · exact .silent (.refl _ _)

theorem giveBack_answers (sound : b.Sound Holds request) (inv : Inv b Holds request s g nodes)
    {idx : Nat} (hpc : s.pc t = .returning idx) (hcall : s.giveBack b t idx = some s') :
    Store.Step shape fits s.view .silent s'.view := by
  obtain ⟨hclass, hrow, -⟩ :
      PcOk b.classes request (s.caches t) (nodes t) (.returning idx) := hpc ▸ inv.pcs t
  obtain ⟨⟨slab, heap⟩, hback, hcall⟩ := Option.bind_eq_some_iff.mp hcall
  cases hcall
  split at hback
  · have hshare := ThreadCacheUnit.share_of_row_eq_nil (nodes t idx) hrow
    have hout : ∀ x ∈ nodes t idx, x ∈ g.out idx := fun x hx =>
      inv.out_of_share (ThreadCacheUnit.mem_share_of_node _ hx)
    have nodup : (nodes t idx).Nodup := by
      have := inv.nodup_share t idx
      rwa [hshare, Multiset.coe_nodup] at this
    obtain ⟨slab', heap', g', hback', -, returned⟩ := deallocate_spec sound.law inv.slab
      (fun _ _ hnum => (configs_fits sound.classes hnum).2) (inv.lists t idx).linked nodup hout
      (inv.lists t idx).length.ge
    cases hback.symm.trans hback'
    refine .silent fun c hc a ha => ?_
    obtain ⟨hle, hlt⟩ := cell_iff.mp ha
    obtain ⟨k, hk, -, hsize, hcout⟩ := inv.live_chunk sound hc
    refine returned.frame k c.ptr ?_ a hle (hlt.trans_le (Nat.add_le_add_left hsize _))
    rw [returned.out]
    by_cases hkidx : k = idx
    · subst hkidx
      rw [Function.update_self, Finset.mem_sdiff, List.mem_toFinset]
      exact ⟨hcout, fun hnode => inv.live_apart (t := t) (mem_liveChunks hc hk)
        (ThreadCacheUnit.mem_share_of_node _ hnode)⟩
    · rwa [Function.update_of_ne hkidx]
  · cases hback
    exact .silent (.refl _ _)

/-- A move of a thread is an event of the store. -/
theorem exec_answers (sound : b.Sound Holds request) (pos : ∀ size, request size → 0 < size)
    (inv : Inv b Holds request s g nodes) (inv' : Inv b Holds request s' g' nodes') {m : Move}
    (enabled : s.Enabled b t request m) (hfits : ∀ o ∈ s'.live, fits o)
    (hcall : s.exec b t m = some s') :
    ∃ e, s.Answers b t m e ∧ Store.Step shape fits s.view e s'.view := by
  cases m with
  | allocate layout => exact inv.allocate_answers sound inv' enabled.2 hfits hcall
  | refill mapped =>
      obtain ⟨⟨idx, layout, hpc⟩, fresh⟩ := enabled
      rw [State.exec, hpc] at hcall
      exact inv.refill_answers sound inv' hpc fresh hfits hcall
  | deallocate block => exact inv.deallocate_answers sound pos enabled.2 hcall
  | store block offset v =>
      cases hcall
      exact ⟨_, rfl, store_answers enabled.2.1 enabled.2.2 v⟩
  | exit =>
      cases hcall
      exact ⟨_, rfl, .silent (.refl _ _)⟩
  | flush =>
      obtain ⟨idx, hpc⟩ := enabled
      rw [State.exec, hpc] at hcall
      cases hcall
      exact ⟨_, rfl, inv.flush_answers sound idx⟩
  | giveBack =>
      obtain ⟨idx, hpc⟩ := enabled
      rw [State.exec, hpc] at hcall
      exact ⟨_, rfl, inv.giveBack_answers sound hpc hcall⟩

end Inv

end Small

/-- The program can use the block. -/
def Live.Fits (block : Live) : Prop := 0 < block.ptr ∧ block.Aligned

namespace RustState

/-- What the program sees of the allocator. -/
def view (r : RustState ι σ) : Store.State Live Nat Nat := ⟨r.blocks, r.mem⟩

/-- The events that a move can stand for. -/
def Answers (B : PageBackend σ) (r : RustState ι σ) : RustMove ι → Event Live Nat → Prop
  | .small t m, e => r.cache.Answers (largeBuild B) t m e
  | .alloc _ layout, e => ∃ ptr, e = .alloc ⟨ptr, layout⟩
  | .dealloc _ block, e => e = .free block
  | .store _ block offset v, e => e = .write block offset v
  | .realloc _ block newSize _, e => ∃ ptr, e = .resize block ⟨ptr, newSize, block.layout.align⟩

end RustState

/-- The backend has what the move may ask it for. -/
def RustMove.Supplied (B : PageBackend σ) (Holds : σ → Mem → RadixTree → Set Block → Prop)
    (r : RustState ι σ) : RustMove ι → Prop
  | .alloc _ layout => Cache.Supplied B Holds r layout.size
  | .realloc _ _ newSize _ => Cache.Supplied B Holds r newSize
  | .small _ _ | .dealloc _ _ | .store _ _ _ _ => True

/-- The program writes to the block or gives it away. -/
def RustMove.Touches (block : Live) : RustMove ι → Prop
  | .small _ (.deallocate c) | .small _ (.store c _ _) | .dealloc _ c | .store _ c _ _
  | .realloc _ c _ _ => c = block
  | .small _ _ | .alloc _ _ => False

section Large

variable {B : PageBackend σ} {Holds : σ → Mem → RadixTree → Set Block → Prop}
  {r r' : RustState ι σ} {g g' : Ghost Nat} {nodes nodes' : ι → Nat → List Nat} {t : ι}
  {block : Live} {m : RustMove ι}

omit [DecidableEq ι] [Fintype ι] in
theorem RustState.Answers.touches {e : Event Live Nat} (answers : r.Answers B m e)
    (touches : e.Touches block) : m.Touches block := by
  cases m with
  | small t m =>
      cases m with
      | allocate layout =>
          obtain ⟨ptr, rfl⟩ | ⟨rfl, -⟩ := answers
          · exact touches
          · exact touches
      | refill mapped =>
          obtain ⟨idx, layout, ptr, -, rfl⟩ := answers
          exact touches
      | deallocate c =>
          cases answers
          exact touches
      | store c offset v =>
          cases answers
          exact touches
      | _ =>
          cases answers
          exact touches
  | alloc t layout =>
      obtain ⟨ptr, rfl⟩ := answers
      exact touches
  | dealloc t c =>
      cases answers
      exact touches
  | store t c offset v =>
      cases answers
      exact touches
  | realloc t c newSize mapped =>
      obtain ⟨ptr, rfl⟩ := answers
      exact touches

omit [DecidableEq ι] in
theorem RustInv.separate (law : Lawful B Holds) (rinv : RustInv B Holds r g nodes) :
    Store.Separate shape r.blocks :=
  fun _ ho _ hc _ ha ha' => rinv.apart law ho hc (cell_iff.mp ha) (cell_iff.mp ha')

omit [DecidableEq ι] in
theorem RustInv.block_apart (law : Lawful B Holds) (rinv : RustInv B Holds r g nodes)
    (hblocks : r.blocks = block ::ₘ r'.blocks) : ∀ c ∈ r'.blocks, shape.Apart block c := by
  have separate := rinv.separate law
  rw [hblocks] at separate
  exact separate.head

/-- The large blocks stay as they are when a thread uses the caches. -/
theorem RustInv.small_answers (law : Lawful B Holds) (rinv : RustInv B Holds r g nodes)
    {m : Move} (enabled : r.cache.Enabled (largeBuild B) t (SmallRequest tcSizeClass) m)
    {cache : State ι (FixedBack σ)} (hcall : r.cache.exec (largeBuild B) t m = some cache)
    (fits : ∀ o ∈ cache.live, o.Fits) :
    ∃ e, r.Answers B (.small t m) e ∧
      Store.Step shape Live.Fits r.view e (RustState.view { r with cache }) := by
  have sound := largeBuild_sound law r.large r.mem
  obtain ⟨cache', g', nodes', hexec, inv'⟩ | ⟨hnone, -⟩ := rinv.fixed.exec sound enabled
  · cases hcall.symm.trans hexec
    obtain ⟨rinv', kept⟩ := rinv.of_fixed inv'
    obtain ⟨e, he, hstep⟩ := rinv.fixed.exec_answers sound (fun _ h => h.1) inv' enabled fits hcall
    refine ⟨e, he, hstep.frame r.big (fun c hc a ha => ?_) fun o ho c hc a ha ha' => ?_⟩
    · exact kept _ (rinv.run_mem hc) a (Live.byte_page (rinv.run_placed law hc) (cell_iff.mp ha))
    · exact rinv'.small_off law ho hc (cell_iff.mp ha) (cell_iff.mp ha')
  · cases hcall.symm.trans hnone

/-- A move of a thread is an event of the store. -/
theorem RustInv.step_answers (law : Lawful B Holds) (rounds : Rounds B)
    (rinv : RustInv B Holds r g nodes) (rinv' : RustInv B Holds r' g' nodes')
    (hstep : RustStep B r m r') (supplied : m.Supplied B Holds r)
    (fits : ∀ o ∈ r'.blocks, o.Fits) :
    ∃ e, r.Answers B m e ∧ Store.Step shape Live.Fits r.view e r'.view := by
  obtain ⟨enabled, hexec⟩ := hstep
  cases m with
  | small t m =>
      obtain ⟨cache, hcall, hexec⟩ := Option.bind_eq_some_iff.mp hexec
      cases hexec
      exact rinv.small_answers law enabled hcall fun o ho =>
        fits o (Multiset.mem_add.mpr (.inl ho))
  | alloc t layout =>
      obtain ⟨-, hlarge, hsize⟩ := enabled
      obtain ⟨⟨ptr, r₁⟩, hcall, hexec⟩ := Option.bind_eq_some_iff.mp hexec
      cases hexec
      obtain ⟨ptr', r₂, hcall', -, allocated⟩ | ⟨-, hout⟩ :=
        rinv.allocLarge law rounds (t := t) hlarge hsize 0
      · cases hcall.symm.trans hcall'
        have hblocks := allocated.blocks
        refine ⟨.alloc ⟨ptr, layout⟩, ⟨ptr, rfl⟩, ?_⟩
        rw [RustState.view, RustState.view, hblocks]
        refine .alloc (fits _ (hblocks ▸ Multiset.mem_cons_self _ _))
          (rinv'.block_apart law hblocks) fun c hc a ha => ?_
        exact allocated.kept c hc a (cell_iff.mp ha)
      · exact absurd supplied hout
  | dealloc t block =>
      obtain ⟨-, hblock⟩ := enabled
      obtain ⟨r₁, hcall, -, released, -, kept⟩ := rinv.deallocLarge law rounds (t := t) hblock
      cases hexec.symm.trans hcall
      refine ⟨.free block, rfl, ?_⟩
      rw [RustState.view, RustState.view, released.blocks]
      exact .free (Multiset.mem_add.mpr (.inr hblock)) fun c hc a ha => kept c hc a (cell_iff.mp ha)
  | store t block offset v =>
      obtain ⟨-, hblock, hoffset⟩ := enabled
      cases hexec
      exact ⟨.write block offset v, rfl, .write (Multiset.mem_add.mpr (.inr hblock)) hoffset
        (Function.update_self _ _ _) fun _ _ _ _ hne => Function.update_of_ne hne _ _⟩
  | realloc t block newSize mapped =>
      obtain ⟨idle, hblock, hsize, fresh⟩ := enabled
      obtain ⟨⟨q, r₁⟩, hcall, hexec⟩ := Option.bind_eq_some_iff.mp hexec
      cases hexec
      obtain ⟨q', r₂, _, _, hcall', -, reallocated⟩ | ⟨-, hout⟩ :=
        rinv.realloc law rounds idle hblock hsize fresh
      · cases hcall.symm.trans hcall'
        have hblocks := reallocated.blocks
        refine ⟨.resize block ⟨q, newSize, block.layout.align⟩, ⟨q, rfl⟩, ?_⟩
        rw [RustState.view, RustState.view, hblocks]
        refine .resize hblock (fits _ (hblocks ▸ Multiset.mem_cons_self _ _))
          (fun c hc a ha ha' => ?_) reallocated.copied fun c hc a ha => ?_
        · exact reallocated.apart c hc a (cell_iff.mp ha) (cell_iff.mp ha')
        · exact reallocated.others c hc a (cell_iff.mp ha)
      · exact absurd supplied hout

/-- What is known of every state that a run reaches. -/
def RustOk (B : PageBackend σ) (Holds : σ → Mem → RadixTree → Set Block → Prop)
    (r : RustState ι σ) : Prop :=
  (∃ g nodes, RustInv B Holds r g nodes) ∧ AllAligned r.cache.live

namespace RustOk

omit [DecidableEq ι] in
theorem new {mem : Mem} {back : σ} (start : Holds back mem TreeNode.zeroed ∅) :
    RustOk B Holds (RustState.new mem back : RustState ι σ) :=
  ⟨⟨_, _, rustInv_new start⟩, fun _ h => absurd h (Multiset.notMem_zero _)⟩

theorem step (law : Lawful B Holds) (rounds : Rounds B) (ok : RustOk B Holds r)
    (hstep : RustStep B r m r') : RustOk B Holds r' := by
  obtain ⟨⟨g, nodes, rinv⟩, aligned⟩ := ok
  exact ⟨rinv.step law rounds hstep, rinv.step_aligned law hstep aligned⟩

omit [DecidableEq ι] in
theorem fits (law : Lawful B Holds) (ok : RustOk B Holds r) : ∀ o ∈ r.blocks, o.Fits := by
  obtain ⟨⟨g, nodes, rinv⟩, aligned⟩ := ok
  intro o ho
  refine ⟨rinv.ptr_pos law ho, ?_⟩
  obtain hsmall | hlarge := Multiset.mem_add.mp ho
  · exact aligned o hsmall
  · exact Live.aligned_of_page (rinv.run_placed law hlarge).aligned

omit [DecidableEq ι] in
theorem separate (law : Lawful B Holds) (ok : RustOk B Holds r) :
    Store.Separate shape r.blocks := by
  obtain ⟨⟨g, nodes, rinv⟩, -⟩ := ok
  exact rinv.separate law

theorem answers (law : Lawful B Holds) (rounds : Rounds B) (ok : RustOk B Holds r)
    (hstep : RustStep B r m r') (supplied : m.Supplied B Holds r) :
    ∃ e, r.Answers B m e ∧ Store.Step shape Live.Fits r.view e r'.view := by
  have ok' := ok.step law rounds hstep
  obtain ⟨⟨g', nodes', rinv'⟩, -⟩ := id ok'
  obtain ⟨⟨g, nodes, rinv⟩, -⟩ := ok
  exact rinv.step_answers law rounds rinv' hstep supplied (ok'.fits law)

end RustOk

/-- A move of the program, with the event that it sees. -/
abbrev SeenStep (B : PageBackend σ) (step : RustState ι σ → RustMove ι → RustState ι σ → Prop) :
    RustState ι σ → RustMove ι × Event Live Nat → RustState ι σ → Prop :=
  Store.Answered step (RustState.Answers B) RustState.view shape Live.Fits

variable {step : RustState ι σ → RustMove ι → RustState ι σ → Prop} {tr : List (RustMove ι)}

end Large

end UniAlloc.Cache
