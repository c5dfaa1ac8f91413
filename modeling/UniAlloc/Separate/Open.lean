import UniAlloc.Separate.Runs

/-!
# Opening and releasing pages

An allocation that finds no chunk in the partially used pages opens an empty page, or a page
with a run that the backend grants. A page that has got all its chunks back becomes empty,
or gives its run back if there are many empty pages already.
-/

namespace UniAlloc.Separate

open FreeList (Block PG_SIZE)
open Radix
open Slab (Config HeldPage Kind Lawful PAGE_SIZE PageBackend RadixFits SameOn)

variable {σ : Type} {c : Config} {Holds : σ → Mem → RadixTree → Set Block → Prop}
  {B : PageBackend σ} {self self' : SCAllocator} {h h' : Heap σ} {R R' : Kind → List Nat}
  {kind : Kind} {idx : Nat} {newPage : Option Nat}

/-- The runs that the backend grants can be registered. -/
def Grants (B : PageBackend σ) (Holds : σ → Mem → RadixTree → Set Block → Prop) (c : Config) :
    Prop :=
  ∀ {back mem tree held ptr r}, Holds back mem tree held →
    B.alloc back mem tree (PAGE_SIZE * c.pgNum) = some (ptr, r) → RadixFits (c.run ptr)

/-- Between two calls every page is registered and on its ring. -/
structure Settled (c : Config) (Holds : σ → Mem → RadixTree → Set Block → Prop)
    (sc : SCAllocator) (h : Heap σ) (R : Kind → List Nat) : Prop where
  pages : Pages c Holds sc h none
  filed : Filed c sc R none

/-- Page `idx` has been taken off its ring to serve an allocation. If it has got a new run,
it is not registered yet. -/
structure Opened (c : Config) (Holds : σ → Mem → RadixTree → Set Block → Prop)
    (sc : SCAllocator) (h : Heap σ) (R : Kind → List Nat) (idx : Nat) (newPage : Option Nat) :
    Prop where
  lt : idx < sc.pages.len
  pages : Pages c Holds sc h (newPage.map fun _ => idx)
  filed : Filed c sc R (some idx)
  mapped : (sc.page idx).data ≠ 0
  counter : (sc.page idx).counter = 0
  address : ∀ ptr ∈ newPage, ptr = (sc.page idx).data

namespace Settled

theorem lt (settled : Settled c Holds self h R) (hidx : idx ∈ R kind) : idx < self.pages.len :=
  settled.filed.lt hidx

theorem num_pos (settled : Settled c Holds self h R) : 0 < c.pgNum := settled.pages.tight.num_pos

/-- There is a page without a run, after one has been pushed if necessary. -/
theorem exists_uninit (law : Lawful B Holds) (settled : Settled c Holds self h R) :
    ∃ self' R', (if self.count .uninit = 0 then
        { self.pushPage with
          start := Function.update self.start .uninit self.pages.len
          count := Function.update self.count .uninit 1 }
      else self) = self' ∧ Settled c Holds self' h R' ∧ self'.start .uninit ∈ R' .uninit ∧
      ∀ x, Out c self' x ↔ Out c self x := by
  by_cases hcount : self.count .uninit = 0
  · have hnone : R .uninit = [] :=
      List.eq_nil_of_length_eq_zero ((settled.filed.threads.count .uninit).symm.trans hcount)
    have hall : ∀ idx < self.pages.len, (self.page idx).data ≠ 0 := by
      intro idx hlt
      obtain ⟨kind, hidx⟩ := settled.filed.all idx hlt nofun
      have belongs := settled.filed.belongs hidx
      cases kind with
      | full => exact belongs.1
      | partially => exact belongs.1
      | empty => exact belongs.1
      | uninit =>
          rw [hnone] at hidx
          exact absurd hidx List.not_mem_nil
    obtain ⟨pages, hout⟩ := settled.pages.push law hall
    have same : SamePages self.pushPage
        { self.pushPage with
          start := Function.update self.start .uninit self.pages.len
          count := Function.update self.count .uninit 1 } := ⟨rfl, rfl, rfl, rfl, rfl⟩
    rw [if_pos hcount]
    refine ⟨_, _, rfl, ⟨pages.same same, settled.filed.push hnone⟩, ?_, ?_⟩
    · dsimp only
      rw [Function.update_self, Function.update_self]
      exact List.mem_singleton_self _
    · intro x
      rw [same.out_iff, hout]
  · rw [if_neg hcount]
    exact ⟨self, R, rfl, settled, settled.filed.threads.start_mem (Nat.pos_of_ne_zero hcount),
      fun _ => Iff.rfl⟩

/-- A page gets a new run, unless the backend has none. -/
theorem getUninit_spec (law : Lawful B Holds) (grants : Grants B Holds c)
    (settled : Settled c Holds self h R) :
    (B.alloc h.back h.mem h.tree (PAGE_SIZE * c.pgNum) = none ∧
      self.getUninit B h = .error .refused) ∨
    ∃ self' h' R' idx ptr r, B.alloc h.back h.mem h.tree (PAGE_SIZE * c.pgNum) = some (ptr, r) ∧
      self.getUninit B h = .ok (self', h', idx, ptr) ∧
      Opened c Holds self' h' R' idx (some ptr) ∧ ∀ x, Out c self' x ↔ Out c self x := by
  obtain ⟨self₁, R₁, hself₁, settled₁, hstart, hout₁⟩ := settled.exists_uninit law
  obtain ⟨self₂, hremove, filed₂, same⟩ := settled₁.filed.remove hstart
  have hlt : self₁.start .uninit < self₂.pages.len := same.len ▸ settled₁.lt hstart
  have pages₂ := settled₁.pages.same same
  have hzero : (self₂.page (self₁.start .uninit)).data = 0 := by
    rw [same.page]
    exact settled₁.filed.belongs hstart
  have hget : self.getUninit B h = (self₂.allocatePage B h (self₁.start .uninit)).bind
      fun r => .ok (r.1, r.2.1, self₁.start .uninit, r.2.2) := by
    simp only [SCAllocator.getUninit, hself₁, SCAllocator.removeUninit, hremove, orPanic, bind,
      Except.bind]
    rfl
  cases halloc : B.alloc h.back h.mem h.tree (PAGE_SIZE * c.pgNum) with
  | none =>
      refine .inl ⟨rfl, ?_⟩
      rw [hget, SCAllocator.allocatePage, SCAllocator.get_page hlt, pages₂.shaped.pgNum]
      simp only [orPanic, bind, Except.bind, halloc]
  | some r =>
      obtain ⟨ptr, back, mem, tree⟩ := r
      obtain ⟨self₃, hcall, edit, hpage, hptr, pages₃, hout₃⟩ := pages₂.acquire law hlt hzero
        settled.num_pos (grants settled.pages.holds halloc) halloc
      refine .inr ⟨self₃, _, _, _, ptr, _, rfl, by rw [hget, hcall]; rfl,
        ⟨edit.len ▸ hlt, pages₃, filed₂.edit edit, ?_, ?_, ?_⟩, ?_⟩
      · rw [hpage]
        exact hptr
      · rw [hpage]
        exact pages₂.unmapped _ hlt hzero
      · intro p hp
        rw [hpage]
        exact (Option.some.inj hp).symm
      · intro x
        rw [hout₃, same.out_iff, hout₁]

/-- The page an allocation opens: the first of the empty ones, or a page with a new run. -/
theorem getEmpty_spec (law : Lawful B Holds) (grants : Grants B Holds c)
    (settled : Settled c Holds self h R) :
    (self.count .empty = 0 ∧ B.alloc h.back h.mem h.tree (PAGE_SIZE * c.pgNum) = none ∧
      self.getEmpty B h = .error .refused) ∨
    ∃ self' h' R' idx newPage, self.getEmpty B h = .ok (self', h', idx, newPage) ∧
      Opened c Holds self' h' R' idx newPage ∧ (∀ x, Out c self' x ↔ Out c self x) ∧
      (0 < self.count .empty ∧ (self'.page idx).data = (self.page (self.start .empty)).data ∨
        self.count .empty = 0 ∧ ∃ r, B.alloc h.back h.mem h.tree (PAGE_SIZE * c.pgNum) =
          some ((self'.page idx).data, r)) := by
  by_cases hpos : 0 < self.count .empty
  · have hstart := settled.filed.threads.start_mem hpos
    obtain ⟨self', hremove, filed', same⟩ := settled.filed.remove hstart
    obtain ⟨hdata, hcounter⟩ := settled.filed.belongs hstart
    refine .inr ⟨self', h, _, _, none, ?_, ⟨?_, settled.pages.same same, filed', ?_, ?_, nofun⟩,
      fun x => same.out_iff, .inl ⟨hpos, by rw [same.page]⟩⟩
    · simp only [SCAllocator.getEmpty, if_pos hpos, hremove, orPanic, bind, Except.bind]
      rfl
    · exact same.len ▸ settled.lt hstart
    · rw [same.page]
      exact hdata
    · rw [same.page]
      exact hcounter
  · have hzero : self.count .empty = 0 := Nat.eq_zero_of_not_pos hpos
    obtain ⟨halloc, hcall⟩ | ⟨self', h', R', idx, ptr, r, halloc, hcall, opened, hout⟩ :=
      settled.getUninit_spec law grants
    · refine .inl ⟨hzero, halloc, ?_⟩
      simp only [SCAllocator.getEmpty, if_neg hpos, hcall, bind, Except.bind]
    · refine .inr ⟨self', h', R', idx, some ptr, ?_, opened, hout, .inr ⟨hzero, r, ?_⟩⟩
      · simp only [SCAllocator.getEmpty, if_neg hpos, hcall, bind, Except.bind]
        rfl
      · rw [halloc, opened.address ptr rfl]

end Settled

/-- The page that has been opened is filed, and then its run is registered. -/
theorem Filed.register (law : Lawful B Holds) (filed : Filed c self R none)
    (pages : Pages c Holds self h (newPage.map fun _ => idx)) (hlt : idx < self.pages.len)
    (hdata : (self.page idx).data ≠ 0) (address : ∀ ptr ∈ newPage, ptr = (self.page idx).data) :
    ∃ tree, self.register h.tree idx newPage = some tree ∧
      Settled c Holds self { h with tree } R := by
  cases newPage with
  | none => exact ⟨h.tree, rfl, pages, filed⟩
  | some ptr =>
      obtain ⟨tree, hcall, pages⟩ := pages.register law hlt hdata
      exact ⟨tree, by rw [SCAllocator.register, address ptr rfl, hcall], pages, filed⟩

/-- A page without chunks out goes to the empty ring, or it loses its run. -/
theorem Filed.release (law : Lawful B Holds) (filed : Filed c self R (some idx))
    (pages : Pages c Holds self h none) (hlt : idx < self.pages.len)
    (hdata : (self.page idx).data ≠ 0) (hcounter : (self.page idx).counter = 0) :
    ∃ self' h' R', self.release B h idx = some (self', h') ∧ Settled c Holds self' h' R' ∧
      (∀ j, (self'.page j).data = (self.page j).data ∨ (self'.page j).data = 0) ∧
      ∀ x, Out c self' x ↔ Out c self x := by
  by_cases hmany : 2048 < self.count .empty
  · obtain ⟨tree, hremove, pages₁⟩ := pages.unregister law hlt hdata
    obtain ⟨alone, absent⟩ := filed.off idx rfl
    obtain ⟨self₂, hinsert, threads₂, same⟩ :=
      filed.threads.insertInto_spec absent alone .uninit
    have pages₂ := pages₁.same same
    obtain ⟨self₃, h₃, hdestroy, edit, hdata₃, pages₃, hout⟩ :=
      pages₂.giveBack law (same.len ▸ hlt) (by rw [same.page]; exact hdata)
        (by rw [same.page]; exact hcounter)
    refine ⟨self₃, h₃, _, ?_, ⟨pages₃, threads₂.edit edit, ?_, ?_, nofun⟩, ?_, ?_⟩
    · simp only [SCAllocator.release, SCAllocator.tryBackEty, if_pos hmany,
        SCAllocator.get_page hlt, if_neg hdata, hremove, SCAllocator.backEty,
        SCAllocator.backUninit, hinsert, hdestroy, bind, Option.bind]
    · intro k j hj
      obtain ⟨rfl, rfl⟩ | hj := Threads.mem_concat hj
      · exact hdata₃
      · have hne : j ≠ idx := fun e => absent k (e ▸ hj)
        rw [edit.page j hne, same.page]
        exact filed.belongs hj
    · intro j hj _
      rw [edit.len, same.len] at hj
      by_cases hne : idx = j
      · subst hne
        refine ⟨.uninit, ?_⟩
        rw [Function.update_self]
        exact List.mem_append_right _ (List.mem_singleton_self _)
      · obtain ⟨k, hk⟩ := filed.all j hj fun e => hne (Option.some.inj e)
        refine ⟨k, ?_⟩
        by_cases hkind : k = .uninit
        · subst hkind
          rw [Function.update_self]
          exact List.mem_append_left _ hk
        · rwa [Function.update_of_ne hkind]
    · intro j
      by_cases hne : j = idx
      · rw [hne]
        exact .inr hdata₃
      · rw [edit.page j hne, same.page]
        exact .inl rfl
    · intro x
      rw [hout, same.out_iff]
  · obtain ⟨self₁, hinsert, filed₁, same⟩ := filed.insert .empty ⟨hdata, hcounter⟩
    refine ⟨self₁, h, _, ?_, ⟨pages.same same, filed₁⟩, ?_, fun x => same.out_iff⟩
    · simp only [SCAllocator.release, SCAllocator.tryBackEty, if_neg hmany, SCAllocator.backEty,
        hinsert, bind, Option.bind]
    · intro j
      rw [same.page]
      exact .inl rfl

end UniAlloc.Separate
