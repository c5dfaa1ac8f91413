import UniAlloc.Collections.Rings
import UniAlloc.Separate.Basic

/-!
# The rings of a separate slab allocator

The four rings lie in one vector. `Threads` says which indices are on them; a removal and an
insertion move one index and leave the pages and their bits alone.
-/

namespace UniAlloc.Separate

open Slab (Kind)

/-- The rings, with their starts and counts. The start of an empty ring means nothing. -/
structure Threads (sc : SCAllocator) (R : Kind → List Nat) : Prop where
  rings : sc.pages.Rings
  ring : ∀ kind, sc.pages.Ring (R kind)
  count : ∀ kind, sc.count kind = (R kind).length
  start : ∀ kind, ∀ x ∈ (R kind).head?, sc.start kind = x
  apart : ∀ {a b x}, x ∈ R a → x ∈ R b → a = b

/-- The pages, their bits and the parameters are the same. -/
structure SamePages (sc sc' : SCAllocator) : Prop where
  items : sc'.pages.items = sc.pages.items
  bitfields : sc'.bitfields = sc.bitfields
  pgNum : sc'.pgNum = sc.pgNum
  pgCount : sc'.pgCount = sc.pgCount
  pgAlign : sc'.pgAlign = sc.pgAlign

variable {self self' : SCAllocator} {R : Kind → List Nat} {kind k : Kind} {idx x : Nat}

namespace SamePages

theorem len (same : SamePages self self') : self'.pages.len = self.pages.len := by
  rw [← ArrayLinkedList.items_length, same.items, ArrayLinkedList.items_length]

theorem get (same : SamePages self self') (i : Nat) : self'.pages.get i = self.pages.get i := by
  rw [ArrayLinkedList.get_eq, ArrayLinkedList.get_eq, same.items]

theorem slice (same : SamePages self self') (i : Nat) : self'.slice i = self.slice i := by
  rw [SCAllocator.slice, SCAllocator.slice, same.bitfields, same.pgCount]

theorem trans {self'' : SCAllocator} (same : SamePages self self') (h : SamePages self' self'') :
    SamePages self self'' :=
  ⟨h.items.trans same.items, h.bitfields.trans same.bitfields, h.pgNum.trans same.pgNum,
    h.pgCount.trans same.pgCount, h.pgAlign.trans same.pgAlign⟩

end SamePages

namespace Threads

theorem lt (threads : Threads self R) (hx : x ∈ R kind) : x < self.pages.len :=
  (threads.ring kind).lt x hx

theorem nodup (threads : Threads self R) (kind : Kind) : (R kind).Nodup := (threads.ring kind).nodup

theorem start_mem (threads : Threads self R) (hpos : 0 < self.count kind) :
    self.start kind ∈ R kind := by
  rw [threads.count kind] at hpos
  obtain ⟨a, m, hR⟩ := List.exists_cons_of_length_pos hpos
  have hstart := threads.start kind a (by rw [hR]; rfl)
  rw [hstart, hR]
  exact List.mem_cons_self

/-- A ring without one of its indices is a ring. -/
theorem ring_erase {list after : ArrayLinkedList ObjectPage} {l : List Nat} (ring : list.Ring l)
    (hx : idx ∈ l) (removes : ArrayLinkedList.Removes list after idx) :
    after.Ring (l.erase idx) := by
  obtain ⟨p, q, rfl⟩ := List.append_of_mem hx
  have hp : idx ∉ p := by
    intro hp
    exact (List.nodup_append.mp ring.nodup).2.2 idx hp idx List.mem_cons_self rfl
  have rotated : list.Ring (idx :: (q ++ p)) := by
    rw [← List.cons_append]
    exact ring.rotate List.isRotated_append
  rw [List.erase_append_right _ hp, List.erase_cons_head]
  exact (removes.ring _ rotated).rotate List.isRotated_append

theorem removeFrom_spec (threads : Threads self R) (hx : idx ∈ R kind) :
    ∃ self', self.removeFrom kind idx = some self' ∧
      Threads self' (Function.update R kind ((R kind).erase idx)) ∧ SamePages self self' ∧
      self'.pages.Ring [idx] := by
  have hlt := threads.lt hx
  obtain ⟨pages, hremove, relinks⟩ :=
    ArrayLinkedList.removeNode_spec threads.rings.closed hlt
  have removes := relinks.removes threads.rings hlt
  have hcount : self.count kind ≠ 0 := by
    rw [threads.count]
    exact (List.length_pos_of_mem hx).ne'
  obtain ⟨a, m, hR⟩ := List.exists_cons_of_ne_nil (List.ne_nil_of_mem hx)
  have hstart := threads.start kind a (by rw [hR]; rfl)
  have hring := threads.ring kind
  -- the start moves on if it is the index that goes
  have hnext : (if idx = self.start kind then self.pages.getNext idx else some (self.start kind)) =
      some (if idx = a then self.pages.next a else a) := by
    rw [hstart]
    split
    · next h => rw [h, ArrayLinkedList.getNext_eq (h ▸ hlt)]
    · rfl
  have hhead : ∀ x ∈ ((R kind).erase idx).head?, (if idx = a then self.pages.next a else a) = x := by
    intro x hx'
    rw [hR] at hx' hring
    split
    · next h =>
        subst h
        rw [List.erase_cons_head] at hx'
        obtain ⟨b, m', rfl⟩ : ∃ b m', m = b :: m' := by
          cases m with
          | nil => exact absurd hx' (Option.not_mem_none x)
          | cons b m' => exact ⟨b, m', rfl⟩
        rw [hring.linked.follows_head.1]
        exact Option.some.inj hx'
    · next h =>
        rw [List.erase_cons_tail (by simpa using Ne.symm h)] at hx'
        exact Option.some.inj hx'
  refine ⟨{ self with
      start := Function.update self.start kind (if idx = a then self.pages.next a else a)
      count := Function.update self.count kind (self.count kind - 1)
      pages }, ?_, ⟨?_, ?_, ?_, ?_, ?_⟩, ⟨relinks.items, rfl, rfl, rfl, rfl⟩, removes.alone⟩
  · rw [SCAllocator.removeFrom, hnext, hremove, Option.bind_eq_bind, Option.bind_some,
      Option.bind_eq_bind, Option.bind_some, if_neg hcount]
  · exact removes.rings threads.rings relinks.len
  · intro kind'
    by_cases hk : kind' = kind
    · subst hk
      rw [Function.update_self]
      exact ring_erase hring hx removes
    · rw [Function.update_of_ne hk]
      exact removes.others _ (threads.ring kind') fun hx' => hk (threads.apart hx' hx)
  · intro kind'
    by_cases hk : kind' = kind
    · subst hk
      simp only [Function.update_self]
      rw [List.length_erase_of_mem hx, threads.count]
    · simp only [Function.update_of_ne hk]
      exact threads.count kind'
  · intro kind' x hx'
    by_cases hk : kind' = kind
    · subst hk
      simp only [Function.update_self] at hx' ⊢
      exact hhead x hx'
    · simp only [Function.update_of_ne hk] at hx' ⊢
      exact threads.start kind' x hx'
  · have hsub : ∀ {k y}, y ∈ Function.update R kind ((R kind).erase idx) k → y ∈ R k := by
      intro k y hy
      by_cases hk : k = kind
      · subst hk
        rw [Function.update_self] at hy
        exact List.mem_of_mem_erase hy
      · rwa [Function.update_of_ne hk] at hy
    intro a b x ha hb
    exact threads.apart (hsub ha) (hsub hb)

theorem mem_concat (hx : x ∈ Function.update R kind (R kind ++ [idx]) k) :
    x = idx ∧ k = kind ∨ x ∈ R k := by
  by_cases hk : k = kind
  · subst hk
    rw [Function.update_self] at hx
    obtain hx | hx := List.mem_append.mp hx
    · exact .inr hx
    · exact .inl ⟨List.mem_singleton.mp hx, rfl⟩
  · rw [Function.update_of_ne hk] at hx
    exact .inr hx

/-- With the index at the end of its ring, what is left to check is the vector. -/
theorem concat (threads : Threads self R) (absent : ∀ k, idx ∉ R k)
    (pages : ArrayLinkedList ObjectPage) {start : Kind → Nat} (rings : pages.Rings)
    (ring : pages.Ring (R kind ++ [idx])) (others : ∀ k ≠ kind, pages.Ring (R k))
    (hstart : start = if self.count kind = 0 then Function.update self.start kind idx
      else self.start) :
    Threads { self with
      start
      count := Function.update self.count kind (self.count kind + 1)
      pages } (Function.update R kind (R kind ++ [idx])) := by
  refine ⟨rings, ?_, ?_, ?_, ?_⟩
  · intro k
    by_cases hk : k = kind
    · subst hk
      rwa [Function.update_self]
    · rw [Function.update_of_ne hk]
      exact others k hk
  · intro k
    by_cases hk : k = kind
    · subst hk
      simp only [Function.update_self]
      rw [List.length_append, List.length_singleton, threads.count]
    · simp only [Function.update_of_ne hk]
      exact threads.count k
  · intro k x hx
    subst hstart
    by_cases hk : k = kind
    · subst hk
      rw [Function.update_self] at hx
      dsimp only
      cases hR : R k with
      | nil =>
          rw [hR] at hx
          rw [if_pos (by rw [threads.count, hR]; rfl), Function.update_self]
          exact Option.some.inj hx
      | cons a m =>
          rw [hR] at hx
          rw [if_neg (by rw [threads.count, hR]; exact Nat.succ_ne_zero _)]
          exact threads.start k x (by rw [hR]; exact hx)
    · rw [Function.update_of_ne hk] at hx
      dsimp only
      have := threads.start k x hx
      split
      · rwa [Function.update_of_ne hk]
      · exact this
  · intro a b x ha hb
    obtain ⟨hx, hak⟩ | ha := mem_concat ha
    · obtain ⟨-, hbk⟩ | hb := mem_concat hb
      · exact hak.trans hbk.symm
      · exact absurd (hx ▸ hb) (absent b)
    · obtain ⟨hx, -⟩ | hb := mem_concat hb
      · exact absurd (hx ▸ ha) (absent a)
      · exact threads.apart ha hb

theorem insertInto_spec (threads : Threads self R) (absent : ∀ k, idx ∉ R k)
    (alone : self.pages.Ring [idx]) (kind : Kind) :
    ∃ self', self.insertInto kind idx = some self' ∧
      Threads self' (Function.update R kind (R kind ++ [idx])) ∧ SamePages self self' := by
  have hlt := alone.lt idx List.mem_cons_self
  obtain ⟨hnext, hprev⟩ := LinkedRing.singleton_iff.mp alone.linked
  by_cases hcount : self.count kind = 0
  · have hR : R kind = [] := List.eq_nil_of_length_eq_zero ((threads.count kind).symm.trans hcount)
    obtain ⟨pages, hreset, relinks⟩ := ArrayLinkedList.resetLinks_spec hlt hprev hnext
    have hring : ∀ {l}, self.pages.Ring l → pages.Ring l := fun ring =>
      ring.congr (fun x hx => relinks.len ▸ ring.lt x hx)
        (fun x _ => congrFun relinks.prev x) fun x _ => congrFun relinks.next x
    refine ⟨_, ?_, threads.concat absent pages ?_ ?_ (fun k _ => hring (threads.ring k))
      rfl, ⟨relinks.items, rfl, rfl, rfl, rfl⟩⟩
    · rw [SCAllocator.insertInto, if_pos hcount, hreset]
      rfl
    · intro i hi
      obtain ⟨m, ring⟩ := threads.rings i (relinks.len ▸ hi)
      exact ⟨m, hring ring⟩
    · rw [hR]
      exact hring alone
  · obtain ⟨a, m, hR⟩ := List.exists_cons_of_length_pos
      (Nat.pos_of_ne_zero (threads.count kind ▸ hcount))
    have hstart := threads.start kind a (by rw [hR]; rfl)
    have ha : a ∈ R kind := hR ▸ List.mem_cons_self
    have hne : a ≠ idx := fun e => absent kind (e ▸ ha)
    obtain ⟨pages, hinsert, relinks⟩ :=
      ArrayLinkedList.insertToPrev_spec threads.rings.closed (threads.lt ha) hlt
    have inserts := relinks.inserts threads.rings (threads.lt ha) hlt hnext hne
    have hplace : ∀ m x, x ∈ a :: m ++ [idx] ↔ x = idx ∨ x ∈ a :: m := by
      intro m x
      rw [List.mem_append, List.mem_singleton, or_comm]
    refine ⟨_, ?_, threads.concat absent pages
      (inserts.rings threads.rings (threads.lt ha) hnext hplace relinks.len) ?_ ?_ rfl,
      ⟨relinks.items, rfl, rfl, rfl, rfl⟩⟩
    · rw [SCAllocator.insertInto, if_neg hcount, hstart, hinsert]
      rfl
    · rw [hR]
      exact inserts.ring m (hR ▸ threads.ring kind)
    · intro k hk
      exact inserts.others _ (threads.ring k) (fun h => hk (threads.apart h ha)) (absent k)

end Threads

end UniAlloc.Separate
