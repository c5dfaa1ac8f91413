import UniAlloc.Cache.Invariant
import UniAlloc.Slab.Deallocate

/-!
# Preservation of the cache invariant

A step of a thread changes one unit of its cache. It writes to chunks that this unit
holds or that are live, so the lists of all other units stay as they are.
-/

namespace UniAlloc.Cache

open Slab Ledger Radix

variable {ι σ : Type} [DecidableEq ι] [Fintype ι] {b : Build σ}
  {Holds : σ → Mem → RadixTree → Set FreeList.Block → Prop} {request : Nat → Prop}
  {s s' : State ι σ} {g g' : Ghost Nat} {nodes nodes' : ι → Nat → List Nat} {t t' : ι}
  {k k' x : Nat}

namespace ThreadCacheUnit

theorem mem_share_of_node (unit : ThreadCacheUnit) {nodes : List Nat} (h : x ∈ nodes) :
    x ∈ unit.share nodes := by
  simp [share, h]

theorem share_of_row_eq_nil {unit : ThreadCacheUnit} (nodes : List Nat) (h : unit.row = []) :
    unit.share nodes = ↑nodes := by
  rw [share, h, List.append_nil]

end ThreadCacheUnit

theorem Build.Sound.isClass (sound : b.Sound Holds request) {size idx : Nat} (h : request size)
    (hidx : b.classes.getSizeClass size = .base idx) :
    IsClass b.classes idx ∧ size ≤ (configs b.classes idx).align := by
  obtain ⟨idx', rounds⟩ := sound.rounds size h
  obtain rfl : idx' = idx := SizeClass.base.inj (rounds.class_eq.symm.trans hidx)
  have hclass : IsClass b.classes idx' := ⟨rounds.pos, rounds.lt⟩
  exact ⟨hclass, rounds.size_le.trans (size_le_align sound.classes hclass)⟩

namespace Inv

omit [DecidableEq ι] in
theorem nodup (inv : Inv b Holds request s g nodes) (k : Nat) :
    (liveChunks b.classes s.live k + ∑ t, (s.caches t k).share (nodes t k)).Nodup := by
  rw [inv.total]
  exact (g.out k).nodup

omit [DecidableEq ι] in
theorem out_of_share (inv : Inv b Holds request s g nodes)
    (hx : x ∈ (s.caches t k).share (nodes t k)) : x ∈ g.out k := by
  rw [← Finset.mem_val, ← inv.total k, Multiset.mem_add]
  exact .inr (Multiset.mem_sum.mpr ⟨t, Finset.mem_univ t, hx⟩)

omit [DecidableEq ι] in
theorem out_of_live (inv : Inv b Holds request s g nodes)
    (hx : x ∈ liveChunks b.classes s.live k) : x ∈ g.out k := by
  rw [← Finset.mem_val, ← inv.total k, Multiset.mem_add]
  exact .inl hx

theorem mem_liveChunks {C : SizeClasses} {live : Multiset Live} {block : Live}
    (hblock : block ∈ live) (hidx : InClass C k block) : block.ptr ∈ liveChunks C live k :=
  Multiset.mem_map_of_mem _ (Multiset.mem_filter.mpr ⟨hblock, hidx⟩)

theorem nodup_share (inv : Inv b Holds request s g nodes) (t : ι) (k : Nat) :
    ((s.caches t k).share (nodes t k)).Nodup := by
  have := (Multiset.nodup_add.mp (inv.nodup k)).2.1
  rw [← Finset.add_sum_erase _ _ (Finset.mem_univ t)] at this
  exact (Multiset.nodup_add.mp this).1

/-- A chunk of a unit is in no unit of another thread. -/
theorem share_apart (inv : Inv b Holds request s g nodes) (ht : t' ≠ t)
    (hx : x ∈ (s.caches t k).share (nodes t k)) : x ∉ (s.caches t' k).share (nodes t' k) := by
  have := (Multiset.nodup_add.mp (inv.nodup k)).2.1
  rw [← Finset.add_sum_erase _ _ (Finset.mem_univ t)] at this
  refine fun hx' => Multiset.disjoint_left.mp (Multiset.nodup_add.mp this).2.2 hx ?_
  exact Multiset.mem_sum.mpr ⟨t', Finset.mem_erase.mpr ⟨ht, Finset.mem_univ t'⟩, hx'⟩

omit [DecidableEq ι] in
/-- A live chunk is in no unit. -/
theorem live_apart (inv : Inv b Holds request s g nodes)
    (hx : x ∈ liveChunks b.classes s.live k) : x ∉ (s.caches t k).share (nodes t k) :=
  fun hx' => Multiset.disjoint_left.mp (Multiset.nodup_add.mp (inv.nodup k)).2.2 hx
    (Multiset.mem_sum.mpr ⟨t, Finset.mem_univ t, hx'⟩)

omit [DecidableEq ι] in
theorem share_pos (sound : b.Sound Holds request) (inv : Inv b Holds request s g nodes) (t : ι)
    (k : Nat) : 0 ∉ (s.caches t k).share (nodes t k) := fun hx =>
  absurd (inv.slab.out_pos sound.law (inv.out_of_share hx)) (lt_irrefl 0)

omit [DecidableEq ι] in
/-- The class of a live block, and the chunk it is in. -/
theorem live_chunk (sound : b.Sound Holds request) (inv : Inv b Holds request s g nodes)
    {block : Live} (hblock : block ∈ s.live) :
    ∃ idx, b.classes.getSizeClass block.layout.size = .base idx ∧ IsClass b.classes idx ∧
      block.layout.size ≤ (configs b.classes idx).align ∧ block.ptr ∈ g.out idx := by
  obtain ⟨idx, rounds⟩ := sound.rounds _ (inv.live block hblock)
  obtain ⟨hclass, hsize⟩ := sound.isClass (inv.live block hblock) rounds.class_eq
  exact ⟨idx, rounds.class_eq, hclass, hsize,
    inv.out_of_live (mem_liveChunks hblock rounds.class_eq)⟩

/-- The holdings of all threads, when one unit is changed. -/
theorem sum_share_update (caches : ι → Nat → ThreadCacheUnit) (nodes : ι → Nat → List Nat)
    (t : ι) (k : Nat) (unit : ThreadCacheUnit) (l : List Nat) :
    (∑ u, (Function.update caches t (Function.update (caches t) k unit) u k).share
        (Function.update nodes t (Function.update (nodes t) k l) u k)) +
      (caches t k).share (nodes t k) =
    (∑ u, (caches u k).share (nodes u k)) + unit.share l := by
  have := sum_update Finset.univ
    (fun (_ : ι) (p : (Nat → ThreadCacheUnit) × (Nat → List Nat)) => (p.1 k).share (p.2 k))
    (fun u => (caches u, nodes u)) (Finset.mem_univ t)
    (Function.update (caches t) k unit, Function.update (nodes t) k l)
  simp only [Function.update_self] at this
  rw [← this]
  congr 1
  refine Finset.sum_congr rfl fun u _ => ?_
  by_cases hu : u = t
  · subst hu
    simp
  · simp [Function.update_of_ne hu]

/-- Other classes do not notice. -/
theorem sum_share_update_of_ne {caches : ι → Nat → ThreadCacheUnit} (nodes : ι → Nat → List Nat)
    (t : ι) (unit : ThreadCacheUnit) (l : List Nat) (hk : k' ≠ k) :
    (∑ u, (Function.update caches t (Function.update (caches t) k unit) u k').share
        (Function.update nodes t (Function.update (nodes t) k l) u k')) =
    ∑ u, (caches u k').share (nodes u k') := by
  refine Finset.sum_congr rfl fun u _ => ?_
  by_cases hu : u = t
  · subst hu
    simp [Function.update_of_ne hk]
  · simp [Function.update_of_ne hu]

omit [Fintype ι] in
theorem update_here {α : Type} (f : ι → Nat → α) (t : ι) (k : Nat) (v : α) :
    Function.update f t (Function.update (f t) k v) t k = v := by
  rw [Function.update_self, Function.update_self]

omit [Fintype ι] in
theorem update_other {α : Type} (f : ι → Nat → α) (v : α) (h : t' ≠ t ∨ k' ≠ k) :
    Function.update f t (Function.update (f t) k v) t' k' = f t' k' := by
  by_cases ht : t' = t
  · subst ht
    rw [Function.update_self, Function.update_of_ne (h.resolve_left (not_not_intro rfl))]
  · rw [Function.update_of_ne ht]

omit [DecidableEq ι] in
/-- The nodes of other units are not among the chunks of one unit and the live ones. -/
theorem node_apart (sound : b.Sound Holds request) (inv : Inv b Holds request s g nodes)
    (hx : x ∈ (s.caches t k).share (nodes t k) ∨ x ∈ liveChunks b.classes s.live k)
    (hne : t' ≠ t ∨ k' ≠ k) [DecidableEq ι] : x ∉ nodes t' k' := by
  intro hx'
  have hshare' := ThreadCacheUnit.mem_share_of_node (s.caches t' k') hx'
  have hout : x ∈ g.out k := hx.elim inv.out_of_share inv.out_of_live
  obtain rfl := inv.slab.class_of_out sound.law (inv.out_of_share hshare') hout
  obtain hx | hx := hx
  · exact inv.share_apart (hne.resolve_right (not_not_intro rfl)) hx hshare'
  · exact inv.live_apart hx hshare'

/-- One unit changes, blocks of its class come and go, and so do chunks of the slab
allocator. The words of all other chunks stay as they are. -/
theorem of_step (sound : b.Sound Holds request) (inv : Inv b Holds request s g nodes)
    (hk : IsClass b.classes k) {slabs : Nat → SCAllocator} {heap : Heap σ}
    {unit : ThreadCacheUnit} {l : List Nat} {live : Multiset Live} {pc : ι → Pc}
    (slab : Slab.Inv (configs b.classes) Holds slabs heap g') (lists : unit.Lists heap.mem l)
    (same : ∀ j, ∀ x ∈ g.out j, x ∉ (s.caches t k).share (nodes t k) →
      x ∉ liveChunks b.classes s.live k → heap.mem x = s.heap.mem x)
    (here : liveChunks b.classes live k + unit.share l + (g.out k).val =
      liveChunks b.classes s.live k + (s.caches t k).share (nodes t k) + (g'.out k).val)
    (others : ∀ j ≠ k, liveChunks b.classes live j = liveChunks b.classes s.live j ∧
      g'.out j = g.out j)
    (hlive : ∀ block ∈ live, request block.layout.size)
    (hpc : PcOk b.classes request (Function.update (s.caches t) k unit)
      (Function.update (nodes t) k l) (pc t)) (hother : ∀ u ≠ t, pc u = s.pc u) :
    Inv b Holds request
      ⟨slabs, heap, Function.update s.caches t (Function.update (s.caches t) k unit), pc, live⟩ g'
      (Function.update nodes t (Function.update (nodes t) k l)) where
  slab := slab
  lists u j := by
    by_cases h : u ≠ t ∨ j ≠ k
    · simp only [update_other _ _ h]
      refine (inv.lists u j).congr fun x hx => same j x ?_ (fun hx' => ?_) fun hx' => ?_
      · exact inv.out_of_share (ThreadCacheUnit.mem_share_of_node _ hx)
      · exact inv.node_apart sound (.inl hx') h hx
      · exact inv.node_apart sound (.inr hx') h hx
    · obtain ⟨rfl, rfl⟩ : u = t ∧ j = k := by simpa [not_or] using h
      simpa using lists
  total j := by
    by_cases hj : j = k
    · subst hj
      have hsum := sum_share_update s.caches nodes t j unit l
      have htotal := inv.total j
      refine add_right_cancel (b := (s.caches t j).share (nodes t j) + (g.out j).val) ?_
      calc _ = liveChunks b.classes live j + ((∑ u, (Function.update s.caches t
              (Function.update (s.caches t) j unit) u j).share
              (Function.update nodes t (Function.update (nodes t) j l) u j)) +
              (s.caches t j).share (nodes t j)) + (g.out j).val := by ac_rfl
        _ = (∑ u, (s.caches u j).share (nodes u j)) +
              (liveChunks b.classes live j + unit.share l + (g.out j).val) := by
            rw [hsum]
            ac_rfl
        _ = (liveChunks b.classes s.live j + ∑ u, (s.caches u j).share (nodes u j)) +
              (s.caches t j).share (nodes t j) + (g'.out j).val := by
            rw [here]
            ac_rfl
        _ = _ := by
            rw [htotal]
            ac_rfl
    · rw [(others j hj).2, ← inv.total j]
      exact congrArg₂ _ (others j hj).1 (sum_share_update_of_ne nodes t unit l hj)
  unused u j hj := by
    have h : u ≠ t ∨ j ≠ k := .inr fun e => hj (e ▸ hk)
    simp only [update_other _ _ h]
    exact inv.unused u j hj
  live := hlive
  pcs u := by
    by_cases hu : u = t
    · subst hu
      simpa using hpc
    · simpa [hother u hu, Function.update_of_ne hu] using inv.pcs u

/-- A step without the slab allocator: only words of the chunks of the unit and of live
chunks are written. -/
theorem of_unit (sound : b.Sound Holds request) (inv : Inv b Holds request s g nodes)
    (hk : IsClass b.classes k) {unit : ThreadCacheUnit} {mem : Mem} {l : List Nat}
    {live : Multiset Live} {pc : ι → Pc} (lists : unit.Lists mem l)
    (same : ∀ a, a ∉ (s.caches t k).share (nodes t k) → a ∉ liveChunks b.classes s.live k →
      mem a = s.heap.mem a)
    (here : liveChunks b.classes live k + unit.share l =
      liveChunks b.classes s.live k + (s.caches t k).share (nodes t k))
    (others : ∀ j ≠ k, liveChunks b.classes live j = liveChunks b.classes s.live j)
    (hlive : ∀ block ∈ live, request block.layout.size)
    (hpc : PcOk b.classes request (Function.update (s.caches t) k unit)
      (Function.update (nodes t) k l) (pc t)) (hother : ∀ u ≠ t, pc u = s.pc u) :
    Inv b Holds request { s.setUnit t k unit mem with pc, live } g
      (Function.update nodes t (Function.update (nodes t) k l)) := by
  refine inv.of_step sound hk ?_ lists (fun j x _ => same x) (by rw [here])
    (fun j hj => ⟨others j hj, rfl⟩) hlive hpc hother
  have written : ∀ {a}, a ∈ g.out k → ¬∀ j, ∀ x ∈ g.out j,
      ¬(x ≤ a ∧ a < x + (configs b.classes j).align) := fun {a} hout ha => by
    have := (inv.slab.ok_of_out hout).align_pos
    exact ha k a hout ⟨le_rfl, by omega⟩
  refine inv.slab.write sound.law fun a ha => same a (fun hx => ?_) fun hx => ?_
  · exact written (inv.out_of_share hx) ha
  · exact written (inv.out_of_live hx) ha

theorem PcOk.idle {C : SizeClasses} {units : Nat → ThreadCacheUnit} {nodes : Nat → List Nat}
    {pc : Pc} (h : pc = .idle) : PcOk C request units nodes pc := by
  rw [h]
  trivial

theorem liveChunks_cons {C : SizeClasses} {live : Multiset Live} (block : Live)
    (hidx : C.getSizeClass block.layout.size = .base k) :
    liveChunks C (block ::ₘ live) k = block.ptr ::ₘ liveChunks C live k := by
  have hblock : InClass C k block := hidx
  rw [liveChunks, Multiset.filter_cons_of_pos _ hblock, Multiset.map_cons, liveChunks]

theorem liveChunks_cons_of_ne {C : SizeClasses} {live : Multiset Live} (block : Live)
    (hidx : C.getSizeClass block.layout.size = .base k) (hne : k' ≠ k) :
    liveChunks C (block ::ₘ live) k' = liveChunks C live k' := by
  rw [liveChunks, Multiset.filter_cons_of_neg, liveChunks]
  intro h
  exact hne (SizeClass.base.inj (h.symm.trans hidx))

/-- `allocate` takes a chunk of the unit of its class, or goes on to the slab allocator. -/
theorem allocate (sound : b.Sound Holds request) (inv : Inv b Holds request s g nodes)
    (idle : s.pc t = .idle) {layout : Layout} (hreq : request layout.size) :
    ∃ s' nodes', s.allocate b t layout = some s' ∧ Inv b Holds request s' g nodes' := by
  obtain ⟨idx, rounds⟩ := sound.rounds _ hreq
  have hclass : IsClass b.classes idx := ⟨rounds.pos, rounds.lt⟩
  obtain ⟨unit, mem, ans, l, hlocal, lists, hmem, hans⟩ :=
    ThreadCacheUnit.allocateLocal_spec (inv.lists t idx) (inv.nodup_share t idx)
      (inv.share_pos sound t idx) layout.align
  simp only [State.allocate, rounds.class_eq, if_neg rounds.pos.ne', if_pos rounds.lt, hlocal,
    Option.bind_eq_bind, Option.bind_some]
  obtain ⟨rfl, hshare, hrow, hnone⟩ | ⟨hne, -, hshare⟩ := hans
  · refine ⟨_, _, if_neg (not_not_intro rfl), inv.of_unit sound hclass lists
      (fun a ha _ => hmem a ha) (by rw [hshare]; rfl) (fun _ _ => rfl) inv.live ?_
      fun u hu => Function.update_of_ne hu _ _⟩
    rw [Function.update_self]
    refine ⟨rounds.class_eq, hreq, by rwa [Function.update_self], fun halign => ?_⟩
    rw [Function.update_self]
    refine List.eq_nil_iff_forall_not_mem.mpr fun x hx => ?_
    refine hnone x (hshare ▸ ThreadCacheUnit.mem_share_of_node _ hx) ?_
    rw [halign, Nat.sub_self, Nat.and_zero]
  · refine ⟨_, _, if_pos hne, inv.of_unit sound hclass lists (fun a ha _ => hmem a ha) ?_ ?_ ?_
      (PcOk.idle idle) fun u _ => rfl⟩
    · rw [State.setUnit, liveChunks_cons _ rounds.class_eq, hshare, Multiset.cons_add,
        Multiset.add_cons]
    · exact fun j hj => liveChunks_cons_of_ne _ rounds.class_eq hj
    · exact Multiset.forall_mem_cons.mpr ⟨hreq, inv.live⟩

/-- `deallocate` puts the chunk on the list of the unit of its class. -/
theorem deallocate (sound : b.Sound Holds request) (inv : Inv b Holds request s g nodes)
    (idle : s.pc t = .idle) {block : Live} (hblock : block ∈ s.live) :
    ∃ s' nodes', s.deallocate b t block = some s' ∧ Inv b Holds request s' g nodes' := by
  obtain ⟨idx, hidx, hclass, -, -⟩ := inv.live_chunk sound hblock
  have hchunk := mem_liveChunks hblock hidx
  obtain ⟨live, hlive⟩ := Multiset.exists_cons_of_mem hblock
  have hnode : block.ptr ∉ nodes t idx := fun h =>
    inv.live_apart hchunk (ThreadCacheUnit.mem_share_of_node _ h)
  simp only [State.deallocate, hidx, if_neg hclass.1.ne', if_pos hclass.2]
  refine ⟨_, _, rfl, inv.of_unit sound hclass ((inv.lists t idx).free hnode) (fun a _ ha => ?_) ?_
    ?_ ?_ (PcOk.idle idle) fun u _ => rfl⟩
  · refine ThreadCacheUnit.free_mem _ ?_
    rintro rfl
    exact ha hchunk
  · have hfree := ThreadCacheUnit.share_free s.heap.mem (s.caches t idx) (nodes t idx) block.ptr
    rw [hlive, Multiset.erase_cons_head, liveChunks_cons _ hidx, Multiset.cons_add,
      ← Multiset.add_cons]
    exact congrArg _ hfree
  · intro j hj
    rw [hlive, Multiset.erase_cons_head, liveChunks_cons_of_ne _ hidx hj]
  · exact fun c hc => inv.live c (Multiset.mem_of_mem_erase hc)

omit [DecidableEq ι] in
/-- A write to a live block touches no list. -/
theorem store (sound : b.Sound Holds request) (inv : Inv b Holds request s g nodes)
    {block : Live} (hblock : block ∈ s.live) {offset : Nat} (hoffset : offset < block.layout.size)
    (v : Nat) : Inv b Holds request (s.store block offset v) g nodes := by
  obtain ⟨idx, hidx, -, hsize, hout⟩ := inv.live_chunk sound hblock
  refine { inv with
    slab := inv.slab.write sound.law fun a ha => Function.update_of_ne ?_ _ _
    lists := fun t k => (inv.lists t k).congr fun x hx => Function.update_of_ne ?_ _ _ }
  · rintro rfl
    exact ha idx block.ptr hout ⟨by omega, by omega⟩
  · rintro rfl
    have hx := ThreadCacheUnit.mem_share_of_node (s.caches t k) hx
    have hout' := inv.out_of_share hx
    have := (inv.slab.ok_of_out hout').align_pos
    obtain ⟨rfl, hptr⟩ := inv.slab.out_unique sound.law hout hout' (Nat.le_add_right _ offset)
      (by omega) le_rfl (by omega)
    rw [← hptr] at hx
    exact inv.live_apart (mem_liveChunks hblock hidx) hx

/-- Only the program point of a thread changes. -/
theorem setPc (inv : Inv b Holds request s g nodes) {pc : Pc}
    (hpc : PcOk b.classes request (s.caches t) (nodes t) pc) :
    Inv b Holds request (s.setPc t pc) g nodes :=
  { inv with
    pcs := fun u => by
      by_cases hu : u = t
      · subst hu
        simpa [State.setPc] using hpc
      · simpa [State.setPc, Function.update_of_ne hu] using inv.pcs u }

/-- A thread that ends starts with unit `1`, because unit `0` is never used. -/
theorem exit (inv : Inv b Holds request s g nodes) :
    Inv b Holds request (s.setPc t (.cleaning 1)) g nodes := by
  refine inv.setPc ⟨one_pos, fun k hk => inv.unused t k fun hclass => ?_⟩
  have := hclass.1
  omega

/-- The row of a unit joins its list. -/
theorem flush (sound : b.Sound Holds request) (inv : Inv b Holds request s g nodes) {idx : Nat}
    (hpc : s.pc t = .cleaning idx) :
    ∃ nodes', Inv b Holds request (s.flush b t idx) g nodes' := by
  obtain ⟨hpos, hnew⟩ : PcOk b.classes request (s.caches t) (nodes t) (.cleaning idx) :=
    hpc ▸ inv.pcs t
  rw [State.flush]
  by_cases hidx : idx < b.classes.TOTAL_SIZE_CLASS
  · obtain ⟨l, lists, hrow, hshare, hmem⟩ :=
      ThreadCacheUnit.flush_spec (inv.lists t idx) (inv.nodup_share t idx)
    rw [if_pos hidx]
    refine ⟨_, inv.of_unit sound ⟨hpos, hidx⟩ lists (fun a ha _ => hmem a ha)
      (congrArg _ hshare) (fun _ _ => rfl) inv.live ?_ fun u hu => Function.update_of_ne hu _ _⟩
    rw [Function.update_self]
    refine ⟨⟨hpos, hidx⟩, by rwa [Function.update_self], fun k hk => ?_⟩
    rw [Function.update_of_ne hk.ne]
    exact hnew k hk
  · rw [if_neg hidx]
    refine ⟨nodes, inv.setPc fun k => ?_⟩
    by_cases hk : k < idx
    · exact hnew k hk
    · exact inv.unused t k fun hclass => by
        have := hclass.2
        omega

/-- What `install` makes of a batch. -/
theorem install_spec {cfg : Nat → Config} {h h' : Heap σ} {unit : ThreadCacheUnit}
    {l batch : List Nat} {ptr n : Nat} {stride : Option Nat}
    (granted : Granted cfg h h' g g' k ptr n stride batch) (hptr : 0 ∉ batch)
    (lists : unit.Lists h'.mem l) (hrow : unit.row = []) (hlist : stride = none → l = [])
    (hcount : (cfg k).count < 2 ^ 31) (halign : (cfg k).align < 2 ^ 31) :
    ∃ unit' l', unit.install h'.mem (ptr, n, stride) = some (unit', ptr) ∧
      unit'.Lists h'.mem l' ∧ ptr ::ₘ unit'.share l' = unit.share l + ↑batch ∧
      (ptr : Nat) ∈ batch := by
  have hlen := granted.length
  have hpos := granted.pos
  cases stride with
  | none =>
      obtain rfl := hlist rfl
      obtain ⟨rest, rfl, hrest⟩ : ∃ rest, batch = ptr :: rest ∧
          Segment h'.mem (h'.mem ptr) rest 0 := by
        have linked := granted.linked rfl
        cases batch with
        | nil => simp at hlen; omega
        | cons x rest =>
            obtain ⟨rfl, hrest⟩ := linked
            exact ⟨rest, rfl, hrest⟩
      have hptr0 : ptr ≠ 0 := fun e => hptr (e ▸ List.mem_cons_self)
      refine ⟨{ unit with list := ⟨h'.mem ptr, n - 1⟩ }, rest, ?_, ⟨hrest, ?_⟩, ?_,
        List.mem_cons_self⟩
      · rw [ThreadCacheUnit.install, if_neg]
        simpa [hptr0] using lists.length
      · rw [← hlen]
        rfl
      · have hrest : (↑(rest ++ unit.row) : Multiset Nat) = ↑rest := by rw [hrow, List.append_nil]
        rw [ThreadCacheUnit.share_of_row_eq_nil _ hrow]
        exact congrArg (ptr ::ₘ ·) hrest
  | some a =>
      obtain ⟨rfl, rfl⟩ := granted.row a rfl
      rw [Config.length_chunks] at hlen
      subst hlen
      obtain ⟨m, hm⟩ : ∃ m, (cfg k).count = m + 1 := ⟨(cfg k).count - 1, by omega⟩
      have hchunks : (cfg k).chunks ptr =
          ptr :: (List.range m).map fun i => ptr + (i + 1) * (cfg k).align := by
        rw [Config.chunks, hm, List.range_succ_eq_map, List.map_cons, List.map_map]
        simp only [Nat.zero_mul, Nat.add_zero]
        rfl
      have hmem : ptr ∈ (cfg k).chunks ptr := by
        rw [hchunks]
        exact List.mem_cons_self
      have hptr0 : ptr ≠ 0 := fun e => hptr (e ▸ hmem)
      refine ⟨_, l, if_neg hptr0, ⟨lists.linked, lists.length⟩, ?_, hmem⟩
      rw [ThreadCacheUnit.share, ThreadCacheUnit.row_install (by omega) halign,
        ThreadCacheUnit.share_of_row_eq_nil _ hrow, hchunks, hm, Nat.add_sub_cancel,
        Multiset.cons_coe, Multiset.coe_add, Multiset.coe_eq_coe]
      exact List.perm_middle.symm

/-- A batch goes to the block that is asked for and to the unit. -/
theorem refill (sound : b.Sound Holds request) (inv : Inv b Holds request s g nodes)
    {idx : Nat} {layout : Layout} (hpc : s.pc t = .refill idx layout) {mapped : Nat}
    (fresh : b.maps s.heap mapped) :
    (∃ s' g' nodes', s.refill b t idx layout mapped = some s' ∧
      Inv b Holds request s' g' nodes') ∨
    s.refill b t idx layout mapped = none ∧
      b.exhausted s.heap (configs b.classes idx).pgNum := by
  obtain ⟨hidx, hreq, hrow, hnil⟩ :
      PcOk b.classes request (s.caches t) (nodes t) (.refill idx layout) := hpc ▸ inv.pcs t
  obtain ⟨hclass, -⟩ := sound.isClass hreq hidx
  obtain ⟨slab', h', ptr, n, stride, g', batch, hcall, inv', granted, hstride⟩ | ⟨hcall, hout⟩ :=
    sound.batch layout.align inv.slab hclass fresh
  · have hsame : ∀ j, ∀ x ∈ g.out j, h'.mem x = s.heap.mem x := fun j x hx => by
      have := (inv.slab.ok_of_out hx).align_pos
      exact granted.frame x (inv.slab.out_held sound.law hx le_rfl (by omega))
    have hbatch : ∀ x ∈ batch, x ∈ g'.out idx := fun x hx => by
      rw [granted.out, Function.update_self]
      exact Finset.mem_union_right _ (List.mem_toFinset.mpr hx)
    have hzero : 0 ∉ batch := fun h0 => absurd (inv'.out_pos sound.law (hbatch 0 h0)) (lt_irrefl 0)
    have lists : (s.caches t idx).Lists h'.mem (nodes t idx) :=
      (inv.lists t idx).congr fun x hx =>
        hsame idx x (inv.out_of_share (ThreadCacheUnit.mem_share_of_node _ hx))
    obtain ⟨hcount, halign⟩ := configs_lt sound.classes hclass
    obtain ⟨unit, l, hinstall, lists', hshare, -⟩ := install_spec granted hzero lists hrow
      (fun hs => hnil (hstride hs)) hcount halign
    have hnext : s.refill b t idx layout mapped =
        some ((((s.setSlab idx slab' h').setUnit t idx unit h'.mem).addLive ⟨ptr, layout⟩).setPc t
          .idle) := by
      simp only [State.refill, hcall, hinstall, Option.bind_eq_bind, Option.bind_some]
    refine .inl ⟨_, g', _, hnext, inv.of_step sound hclass inv' lists'
      (fun j x hx _ _ => hsame j x hx) ?_ (fun j hj => ⟨?_, ?_⟩) ?_
      (PcOk.idle (Function.update_self _ _ _)) fun u hu => Function.update_of_ne hu _ _⟩
    · have hval : (g'.out idx).val = (g.out idx).val + ↑batch := by
        rw [granted.out, Function.update_self]
        refine (Multiset.Nodup.ext (Finset.nodup _) ?_).mpr fun x => by simp
        refine Multiset.nodup_add.mpr ⟨Finset.nodup _, granted.nodup, ?_⟩
        exact Multiset.disjoint_left.mpr fun hx hx' => granted.fresh _ hx' hx
      rw [hval]
      refine (congrArg (· + _ + _) (liveChunks_cons ⟨ptr, layout⟩ hidx)).trans ?_
      rw [Multiset.cons_add, ← Multiset.add_cons, hshare]
      ac_rfl
    · exact liveChunks_cons_of_ne ⟨ptr, layout⟩ hidx hj
    · rw [granted.out, Function.update_of_ne hj]
    · exact Multiset.forall_mem_cons.mpr ⟨hreq, inv.live⟩
  · refine .inr ⟨?_, hout⟩
    rw [State.refill, hcall]
    rfl

/-- All chunks of the unit go back to the slab allocator. -/
theorem giveBack (sound : b.Sound Holds request) (inv : Inv b Holds request s g nodes)
    {idx : Nat} (hpc : s.pc t = .returning idx) :
    ∃ s' g' nodes', s.giveBack b t idx = some s' ∧ Inv b Holds request s' g' nodes' := by
  obtain ⟨hclass, hrow, hnew⟩ :
      PcOk b.classes request (s.caches t) (nodes t) (.returning idx) := hpc ▸ inv.pcs t
  have hshare := ThreadCacheUnit.share_of_row_eq_nil (nodes t idx) hrow
  have hout : ∀ x ∈ nodes t idx, x ∈ g.out idx := fun x hx =>
    inv.out_of_share (ThreadCacheUnit.mem_share_of_node _ hx)
  have lists := inv.lists t idx
  have nodup : (nodes t idx).Nodup := by
    have := inv.nodup_share t idx
    rwa [hshare, Multiset.coe_nodup] at this
  obtain ⟨slab', h', g', hcall, inv', returned⟩ : ∃ slab' h' g',
      (if 0 < (s.caches t idx).list.length then
        SCAllocator.deallocateBatch b.backend (s.caches t idx).list.length (s.slabs idx) s.heap
          (s.caches t idx).list.link
      else some (s.slabs idx, s.heap)) = some (slab', h') ∧
      Slab.Inv (configs b.classes) Holds (Function.update s.slabs idx slab') h' g' ∧
      Returned (configs b.classes) s.heap h' g g' idx (nodes t idx) := by
    split
    · exact deallocate_spec sound.law inv.slab (fun _ _ hnum => (configs_fits sound.classes hnum).2)
        lists.linked nodup hout lists.length.ge
    · next hempty =>
        have hnil : nodes t idx = [] := by
          refine List.eq_nil_of_length_eq_zero ?_
          have := lists.length
          omega
        refine ⟨_, _, g, rfl, ?_, ?_, fun _ _ _ _ _ _ => rfl⟩
        · rw [Function.update_eq_self]
          exact inv.slab
        · rw [hnil, List.toFinset_nil, Finset.sdiff_empty, Function.update_eq_self]
  have hsame : ∀ j, ∀ x ∈ g.out j, x ∉ (s.caches t idx).share (nodes t idx) →
      h'.mem x = s.heap.mem x := fun j x hx hx' => by
    have := (inv.slab.ok_of_out hx).align_pos
    refine returned.frame j x ?_ x le_rfl (by omega)
    rw [returned.out]
    by_cases hj : j = idx
    · subst hj
      rw [Function.update_self, Finset.mem_sdiff, List.mem_toFinset]
      exact ⟨hx, fun h => hx' (ThreadCacheUnit.mem_share_of_node _ h)⟩
    · rwa [Function.update_of_ne hj]
  have hnext : s.giveBack b t idx =
      some (((s.setSlab idx slab' h').setUnit t idx ThreadCacheUnit.new h'.mem).setPc t
        (.cleaning (idx + 1))) := by
    simp only [State.giveBack, hcall, Option.bind_eq_bind, Option.bind_some]
  refine ⟨_, g', _, hnext, inv.of_step sound hclass inv' ThreadCacheUnit.lists_new
    (fun j x hx hx' _ => hsame j x hx hx') ?_ (fun j hj => ⟨rfl, ?_⟩) inv.live ?_ fun u hu =>
      Function.update_of_ne hu _ _⟩
  · have hval : (g.out idx).val = (g'.out idx).val + ↑(nodes t idx) := by
      rw [returned.out, Function.update_self]
      refine (Multiset.Nodup.ext (Finset.nodup _) ?_).mpr fun x => ?_
      · refine Multiset.nodup_add.mpr ⟨Finset.nodup _, nodup, ?_⟩
        exact Multiset.disjoint_left.mpr fun hx hx' =>
          (Finset.mem_sdiff.mp hx).2 (List.mem_toFinset.mpr hx')
      · have := hout x
        simp only [Finset.mem_val, Multiset.mem_add, Finset.mem_sdiff, List.mem_toFinset,
          Multiset.mem_coe]
        tauto
    rw [hval, hshare, ThreadCacheUnit.share_of_row_eq_nil _ ThreadCacheUnit.row_new]
    simp only [Multiset.coe_nil, add_zero]
    ac_rfl
  · rw [returned.out, Function.update_of_ne hj]
  · rw [Function.update_self]
    refine ⟨Nat.succ_pos _, fun k hk => ?_⟩
    by_cases h : k = idx
    · subst h
      exact Function.update_self _ _ _
    · rw [Function.update_of_ne h]
      exact hnew k (by omega)

end Inv

end UniAlloc.Cache
