import UniAlloc.Separate.Chunks
import UniAlloc.Separate.Rings
import UniAlloc.Slab.Backend

/-!
# The invariant of a separate slab allocator

`Pages` is about the pages and their bits: every page counts the bits that are set, and the
runs of the pages are those that are out at the backend. `Filed` is about the rings: every
page is on the ring its counter asks for. An operation on a page leaves the links alone, and
a move between rings leaves the pages alone, so that each keeps one of the two for free. In
the middle of a call one page may be on no ring, and one may not be registered.
-/

namespace UniAlloc.Separate

open FreeList (Block PG_SIZE)
open Radix
open Slab (Config HeldPage Kind Lawful PAGE_SIZE PageBackend RadixFits SameOn)

namespace SCAllocator

def page (self : SCAllocator) (idx : Nat) : ObjectPage := (self.pages.get idx).getD ObjectPage.new

/-- The bits of a page. -/
def row (self : SCAllocator) (idx : Nat) : List U32 :=
  (self.bitfields.drop (idx * wordCount self.pgCount)).take (wordCount self.pgCount)

end SCAllocator

/-- The allocator has the parameters it was created with, and a row of bits for each page. -/
structure Shaped (c : Config) (sc : SCAllocator) : Prop where
  pgNum : sc.pgNum = c.pgNum
  pgCount : sc.pgCount = c.count
  pgAlign : sc.pgAlign = c.align
  bits : sc.bitfields.length = sc.pages.len * wordCount c.count

/-- At most page `idx` and its bits have changed. -/
structure Edit (sc sc' : SCAllocator) (idx : Nat) : Prop where
  start : sc'.start = sc.start
  count : sc'.count = sc.count
  pgNum : sc'.pgNum = sc.pgNum
  pgCount : sc'.pgCount = sc.pgCount
  pgAlign : sc'.pgAlign = sc.pgAlign
  len : sc'.pages.len = sc.pages.len
  prev : sc'.pages.prev = sc.pages.prev
  next : sc'.pages.next = sc.pages.next
  bits : sc'.bitfields.length = sc.bitfields.length
  page : ∀ j ≠ idx, sc'.page j = sc.page j
  row : ∀ j ≠ idx, sc'.row j = sc.row j

variable {c : Config} {self self' : SCAllocator} {R : Kind → List Nat} {kind k : Kind}
  {idx j i n x p : Nat} {obj : ObjectPage} {bitfield : List U32}

theorem SCAllocator.get_page (hlt : idx < self.pages.len) :
    self.pages.get idx = some (self.page idx) := by
  have hitem : idx < self.pages.list.length := hlt
  rw [SCAllocator.page, ArrayLinkedList.get, List.getElem?_eq_getElem hitem]
  rfl

theorem SCAllocator.page_of_le (hle : self.pages.len ≤ idx) : self.page idx = ObjectPage.new := by
  have hitem : self.pages.list.length ≤ idx := hle
  rw [SCAllocator.page, ArrayLinkedList.get, List.getElem?_eq_none hitem]
  rfl

namespace Shaped

theorem row_le (shaped : Shaped c self) (hlt : idx < self.pages.len) :
    (idx + 1) * wordCount self.pgCount ≤ self.bitfields.length := by
  rw [shaped.bits, shaped.pgCount]
  exact Nat.mul_le_mul_right _ hlt

theorem slice (shaped : Shaped c self) (hlt : idx < self.pages.len) :
    self.slice idx = some (self.row idx) :=
  if_pos (shaped.row_le hlt)

theorem length_row (shaped : Shaped c self) (hlt : idx < self.pages.len) :
    (self.row idx).length = wordCount c.count := by
  have hle := shaped.row_le hlt
  rw [Nat.succ_mul] at hle
  rw [SCAllocator.row, List.length_take, List.length_drop, shaped.pgCount]
  rw [shaped.pgCount] at hle
  omega

theorem edit (shaped : Shaped c self) (edit : Edit self self' idx) : Shaped c self' :=
  ⟨edit.pgNum.trans shaped.pgNum, edit.pgCount.trans shaped.pgCount,
    edit.pgAlign.trans shaped.pgAlign, by rw [edit.bits, edit.len, shaped.bits]⟩

theorem same (shaped : Shaped c self) (same : SamePages self self') : Shaped c self' :=
  ⟨same.pgNum.trans shaped.pgNum, same.pgCount.trans shaped.pgCount,
    same.pgAlign.trans shaped.pgAlign, by rw [same.bitfields, same.len, shaped.bits]⟩

end Shaped

namespace SamePages

theorem page (same : SamePages self self') (i : Nat) : self'.page i = self.page i := by
  rw [SCAllocator.page, SCAllocator.page, same.get]

theorem row (same : SamePages self self') (i : Nat) : self'.row i = self.row i := by
  rw [SCAllocator.row, SCAllocator.row, same.bitfields, same.pgCount]

end SamePages

namespace SCAllocator

theorem page_setItem (self : SCAllocator) (idx : Nat) (obj : ObjectPage) (j : Nat) :
    ((self.pages.setItem idx obj).get j).getD ObjectPage.new =
      if j = idx ∧ j < self.pages.len then obj else self.page j := by
  rw [ArrayLinkedList.get_setItem, page]
  by_cases hj : j = idx
  · subst hj
    rw [if_pos rfl]
    by_cases hlt : j < self.pages.len
    · have hitem : j < self.pages.list.length := hlt
      rw [if_pos ⟨rfl, hlt⟩, ArrayLinkedList.get, List.getElem?_eq_getElem hitem]
      rfl
    · have hitem : self.pages.list.length ≤ j := Nat.le_of_not_lt hlt
      rw [if_neg (fun h => hlt h.2), ArrayLinkedList.get, List.getElem?_eq_none hitem]
      rfl
  · rw [if_neg hj, if_neg (fun h => hj h.1)]

/-- The part of a list that is replaced. -/
theorem window_splice {α : Type} (l new : List α) {a n : Nat} (hn : new.length = n)
    (hle : (a + 1) * n ≤ l.length) (b : Nat) :
    ((l.take (a * n) ++ new ++ l.drop ((a + 1) * n)).drop (b * n)).take n =
      if b = a then new else (l.drop (b * n)).take n := by
  rw [Nat.succ_mul] at hle ⊢
  have hlen : (l.take (a * n)).length = a * n := by
    rw [List.length_take]
    omega
  obtain hlt | rfl | hgt := Nat.lt_trichotomy b a
  · have hmul := Nat.mul_le_mul_right n hlt
    rw [Nat.succ_mul] at hmul
    rw [if_neg hlt.ne, List.append_assoc, List.drop_append_of_le_length (by omega),
      List.take_append_of_le_length (by rw [List.length_drop]; omega), List.drop_take,
      List.take_take, Nat.min_eq_left (by omega)]
  · rw [if_pos rfl, List.append_assoc, List.drop_append, hlen, Nat.sub_self,
      List.drop_eq_nil_of_le hlen.le, List.nil_append, List.drop_zero, List.take_append, hn,
      Nat.sub_self, List.take_zero, List.append_nil, List.take_of_length_le hn.le]
  · have hmul := Nat.mul_le_mul_right n hgt
    rw [Nat.succ_mul] at hmul
    have hfront : (l.take (a * n) ++ new).length = a * n + n := by
      rw [List.length_append, hlen, hn]
    rw [if_neg hgt.ne', List.drop_append, List.drop_eq_nil_of_le (by omega), List.nil_append,
      hfront, List.drop_drop]
    congr 2
    omega

end SCAllocator

namespace Edit

theorem refl (sc : SCAllocator) (idx : Nat) : Edit sc sc idx :=
  ⟨rfl, rfl, rfl, rfl, rfl, rfl, rfl, rfl, rfl, fun _ _ => rfl, fun _ _ => rfl⟩

/-- What `store` changes. -/
theorem store (shaped : Shaped c self) (hlt : idx < self.pages.len)
    (hlen : bitfield.length = wordCount c.count) (obj : ObjectPage) :
    Edit self (self.store idx obj bitfield) idx ∧
      (self.store idx obj bitfield).page idx = obj ∧
      (self.store idx obj bitfield).row idx = bitfield := by
  have hle := shaped.row_le hlt
  rw [← shaped.pgCount] at hlen
  have hpage : ∀ j, (self.store idx obj bitfield).page j =
      if j = idx ∧ j < self.pages.len then obj else self.page j :=
    self.page_setItem idx obj
  have hrow : ∀ j, (self.store idx obj bitfield).row j =
      if j = idx then bitfield else self.row j := by
    intro j
    exact SCAllocator.window_splice _ _ hlen hle j
  have hbits : (self.store idx obj bitfield).bitfields.length = self.bitfields.length := by
    rw [SCAllocator.store, List.length_append, List.length_append, List.length_take,
      List.length_drop, hlen, Nat.succ_mul]
    rw [Nat.succ_mul] at hle
    omega
  refine ⟨⟨rfl, rfl, rfl, rfl, rfl, ArrayLinkedList.setItem_len _ _ _,
    ArrayLinkedList.setItem_prev _ _ _, ArrayLinkedList.setItem_next _ _ _, hbits, ?_, ?_⟩, ?_, ?_⟩
  · intro j hj
    rw [hpage, if_neg (fun h => hj h.1)]
  · intro j hj
    rw [hrow, if_neg hj]
  · rw [hpage, if_pos ⟨rfl, hlt⟩]
  · rw [hrow, if_pos rfl]

/-- What a change of the page alone changes. -/
theorem setItem (hlt : idx < self.pages.len) (obj : ObjectPage) :
    Edit self { self with pages := self.pages.setItem idx obj } idx ∧
      SCAllocator.page { self with pages := self.pages.setItem idx obj } idx = obj := by
  have hpage : ∀ j, SCAllocator.page { self with pages := self.pages.setItem idx obj } j =
      if j = idx ∧ j < self.pages.len then obj else self.page j :=
    self.page_setItem idx obj
  refine ⟨⟨rfl, rfl, rfl, rfl, rfl, ArrayLinkedList.setItem_len _ _ _,
    ArrayLinkedList.setItem_prev _ _ _, ArrayLinkedList.setItem_next _ _ _, rfl, ?_,
    fun _ _ => rfl⟩, ?_⟩
  · intro j hj
    rw [hpage, if_neg (fun h => hj h.1)]
  · rw [hpage, if_pos ⟨rfl, hlt⟩]

end Edit

/-- Writing back what was read changes nothing. -/
theorem SCAllocator.store_self (hlt : idx < self.pages.len) :
    self.store idx (self.page idx) (self.row idx) = self := by
  have hbits : self.bitfields.take (idx * wordCount self.pgCount) ++ self.row idx ++
      self.bitfields.drop ((idx + 1) * wordCount self.pgCount) = self.bitfields := by
    rw [row, List.append_assoc, Nat.succ_mul, ← List.drop_drop, List.take_append_drop,
      List.take_append_drop]
  rw [store, hbits, ArrayLinkedList.setItem_get (get_page hlt)]

/-- The runs of the pages that have one. -/
def runs (c : Config) (sc : SCAllocator) : Set Block :=
  {b | ∃ idx < sc.pages.len, (sc.page idx).data ≠ 0 ∧ b = c.run (sc.page idx).data}

/-- The runs of the pages other than `idx`. -/
def otherRuns (c : Config) (sc : SCAllocator) (idx : Nat) : Set Block :=
  {b | ∃ j < sc.pages.len, j ≠ idx ∧ (sc.page j).data ≠ 0 ∧ b = c.run (sc.page j).data}

/-- The chunk `x` is number `i` of page `idx`. -/
structure IsChunk (c : Config) (sc : SCAllocator) (idx i x : Nat) : Prop where
  page : idx < sc.pages.len
  mapped : (sc.page idx).data ≠ 0
  lt : i < c.count
  eq : x = (sc.page idx).data + i * c.align

/-- The chunk `x` is out. -/
def Out (c : Config) (sc : SCAllocator) (x : Nat) : Prop :=
  ∃ idx i, IsChunk c sc idx i x ∧ Words.bit (sc.row idx) i = true

/-- The counters and the runs are in order. The page `loose` is not in the radix tree. -/
structure Pages {σ : Type} (c : Config) (Holds : σ → Mem → RadixTree → Set Block → Prop)
    (sc : SCAllocator) (h : Heap σ) (loose : Option Nat) : Prop where
  tight : Tight c
  shaped : Shaped c sc
  counter : ∀ idx < sc.pages.len,
    (sc.page idx).counter = (Words.ones (sc.row idx) c.count).card
  unmapped : ∀ idx < sc.pages.len, (sc.page idx).data = 0 → (sc.page idx).counter = 0
  holds : Holds h.back h.mem h.tree (runs c sc)
  entry : ∀ idx < sc.pages.len, (sc.page idx).data ≠ 0 →
    ∀ p ∈ (c.run (sc.page idx).data).pages,
      h.tree.entry p = if loose = some idx then 0 else (idx : Int) + 1
  fits : ∀ idx < sc.pages.len, (sc.page idx).data ≠ 0 → RadixFits (c.run (sc.page idx).data)
  bound : sc.pages.len ≤ 2 ^ 35 + 1

/-- What the ring of a page says about it. -/
def Belongs (c : Config) (page : ObjectPage) : Kind → Prop
  | .full => page.data ≠ 0 ∧ page.counter = c.count
  | .partially => page.data ≠ 0 ∧ page.counter < c.count
  | .empty => page.data ≠ 0 ∧ page.counter = 0
  | .uninit => page.data = 0

/-- Every page but `off` is on a ring it belongs to. -/
structure Filed (c : Config) (sc : SCAllocator) (R : Kind → List Nat) (off : Option Nat) :
    Prop where
  threads : Threads sc R
  belongs : ∀ {kind idx}, idx ∈ R kind → Belongs c (sc.page idx) kind
  all : ∀ idx < sc.pages.len, off ≠ some idx → ∃ kind, idx ∈ R kind
  off : ∀ idx, off = some idx → sc.pages.Ring [idx] ∧ ∀ kind, idx ∉ R kind

namespace Threads

theorem edit (threads : Threads self R) (edit : Edit self self' idx) : Threads self' R := by
  have hring : ∀ {l}, self.pages.Ring l → self'.pages.Ring l := fun ring =>
    ring.congr (fun x hx => edit.len ▸ ring.lt x hx) (fun x _ => congrFun edit.prev x)
      fun x _ => congrFun edit.next x
  refine ⟨?_, fun kind => hring (threads.ring kind), ?_, ?_, threads.apart⟩
  · intro i hi
    obtain ⟨m, ring⟩ := threads.rings i (edit.len ▸ hi)
    exact ⟨m, hring ring⟩
  · intro kind
    rw [edit.count, threads.count]
  · intro kind x hx
    rw [edit.start, threads.start kind x hx]

end Threads

namespace Filed

theorem lt (filed : Filed c self R none) (hx : idx ∈ R kind) : idx < self.pages.len :=
  filed.threads.lt hx

/-- A page that is on no ring can be changed. -/
theorem edit (filed : Filed c self R (some idx)) (edit : Edit self self' idx) :
    Filed c self' R (some idx) := by
  obtain ⟨alone, absent⟩ := filed.off idx rfl
  refine ⟨filed.threads.edit edit, ?_, ?_, ?_⟩
  · intro kind j hj
    have hne : j ≠ idx := fun e => absent kind (e ▸ hj)
    rw [edit.page j hne]
    exact filed.belongs hj
  · intro j hj
    exact filed.all j (edit.len ▸ hj)
  · rintro j ⟨⟩
    refine ⟨?_, absent⟩
    exact alone.congr (fun x hx => edit.len ▸ alone.lt x hx) (fun x _ => congrFun edit.prev x)
      fun x _ => congrFun edit.next x

/-- A page that stays on its ring can be changed as well. -/
theorem edit_belongs (filed : Filed c self R none) (edit : Edit self self' idx)
    (hidx : idx ∈ R kind) (belongs : Belongs c (self'.page idx) kind) :
    Filed c self' R none := by
  refine ⟨filed.threads.edit edit, ?_, ?_, nofun⟩
  · intro k j hj
    by_cases hne : j = idx
    · subst hne
      rw [filed.threads.apart hj hidx]
      exact belongs
    · rw [edit.page j hne]
      exact filed.belongs hj
  · intro j hj
    exact filed.all j (edit.len ▸ hj)

/-- A page leaves its ring, also after it has been changed. -/
theorem edit_remove (filed : Filed c self R none) (edit : Edit self self' idx)
    (hidx : idx ∈ R kind) :
    ∃ self'', self'.removeFrom kind idx = some self'' ∧
      Filed c self'' (Function.update R kind ((R kind).erase idx)) (some idx) ∧
      SamePages self' self'' := by
  obtain ⟨self'', hcall, threads, same, alone⟩ :=
    (filed.threads.edit edit).removeFrom_spec hidx
  have hmem : ∀ k j, j ≠ idx →
      (j ∈ Function.update R kind ((R kind).erase idx) k ↔ j ∈ R k) := by
    intro k j hj
    by_cases hk : k = kind
    · subst hk
      rw [Function.update_self, List.mem_erase_of_ne hj]
    · rw [Function.update_of_ne hk]
  have habsent : ∀ k, idx ∉ Function.update R kind ((R kind).erase idx) k := by
    intro k
    by_cases hk : k = kind
    · subst hk
      rw [Function.update_self]
      exact (filed.threads.nodup k).not_mem_erase
    · rw [Function.update_of_ne hk]
      exact fun h => hk (filed.threads.apart h hidx)
  refine ⟨self'', hcall, ⟨threads, ?_, ?_, ?_⟩, same⟩
  · intro k j hj
    have hne : j ≠ idx := fun e => habsent k (e ▸ hj)
    rw [same.page, edit.page j hne]
    exact filed.belongs ((hmem k j hne).mp hj)
  · intro j hj hne
    have hne : j ≠ idx := fun e => hne (congrArg some e.symm)
    rw [same.len, edit.len] at hj
    obtain ⟨k, hk⟩ := filed.all j hj nofun
    exact ⟨k, (hmem k j hne).mpr hk⟩
  · rintro j ⟨⟩
    exact ⟨alone, habsent⟩

theorem remove (filed : Filed c self R none) (hidx : idx ∈ R kind) :
    ∃ self', self.removeFrom kind idx = some self' ∧
      Filed c self' (Function.update R kind ((R kind).erase idx)) (some idx) ∧
      SamePages self self' :=
  filed.edit_remove (Edit.refl self idx) hidx

/-- The page goes to a ring. -/
theorem insert (filed : Filed c self R (some idx)) (kind : Kind)
    (belongs : Belongs c (self.page idx) kind) :
    ∃ self', self.insertInto kind idx = some self' ∧
      Filed c self' (Function.update R kind (R kind ++ [idx])) none ∧ SamePages self self' := by
  obtain ⟨alone, absent⟩ := filed.off idx rfl
  obtain ⟨self', hcall, threads, same⟩ := filed.threads.insertInto_spec absent alone kind
  refine ⟨self', hcall, ⟨threads, ?_, ?_, nofun⟩, same⟩
  · intro k j hj
    rw [same.page]
    obtain ⟨rfl, rfl⟩ | hj := Threads.mem_concat hj
    · exact belongs
    · exact filed.belongs hj
  · intro j hj _
    rw [same.len] at hj
    by_cases hne : idx = j
    · subst hne
      refine ⟨kind, ?_⟩
      rw [Function.update_self]
      exact List.mem_append_right _ (List.mem_singleton_self _)
    · obtain ⟨k, hk⟩ := filed.all j hj (fun e => hne (Option.some.inj e))
      refine ⟨k, ?_⟩
      by_cases hkind : k = kind
      · subst hkind
        rw [Function.update_self]
        exact List.mem_append_left _ hk
      · rwa [Function.update_of_ne hkind]

end Filed

end UniAlloc.Separate
