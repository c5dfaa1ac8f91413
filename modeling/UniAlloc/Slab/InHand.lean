import UniAlloc.Slab.Invariant

/-!
# A descriptor between two rings

The operations of an allocator take one descriptor from its ring, or create it,
change it, and put it on another ring. `InHand` is the state in between: every
ring is in order and the descriptor is on none.
-/

namespace UniAlloc.Slab

open FreeList Radix

variable {κ σ : Type}

@[simp] theorem SCAllocator.start_setStart (self : SCAllocator) (kind kind' : Kind) (s : Nat) :
    (self.setStart kind s).start kind' = if kind' = kind then s else self.start kind' := by
  cases kind <;> cases kind' <;> rfl

@[simp] theorem SCAllocator.emptyCount_setStart (self : SCAllocator) (kind : Kind) (s : Nat) :
    (self.setStart kind s).emptyCount = self.emptyCount := by
  cases kind <;> rfl

theorem Configured.setStart {c : Config} {self : SCAllocator} (h : Configured c self) (kind : Kind)
    (s : Nat) : Configured c (self.setStart kind s) := by
  obtain ⟨h₁, h₂, h₃⟩ := h
  cases kind <;> exact ⟨h₁, h₂, h₃⟩

section Rings

variable [DecidableEq κ] {slabs : κ → SCAllocator} {self : SCAllocator} {k : κ} {kind : Kind}
  {desc : Descs} {rings : κ × Kind → List Nat} {x s : Nat}

theorem starts_update (kind : Kind) (s : Nat) :
    starts (Function.update slabs k (self.setStart kind s)) =
      Function.update (starts (Function.update slabs k self)) (k, kind) s := by
  funext ⟨k', kind'⟩
  by_cases hk : k' = k
  · subst hk
    by_cases hkind : kind' = kind
    · subst hkind
      simp [starts]
    · simp [starts, hkind]
  · simp [starts, hk, Function.update_of_ne]

/-- Only the start pointers matter. -/
theorem starts_congr {self' : SCAllocator} (hstart : ∀ kind, self'.start kind = self.start kind) :
    starts (Function.update slabs k self') = starts (Function.update slabs k self) := by
  funext ⟨k', kind'⟩
  by_cases hk : k' = k
  · subst hk
    simp only [starts, Function.update_self, hstart]
  · simp only [starts, Function.update_of_ne hk]

theorem removeFrom_spec {h : Heap σ}
    (ht : h.desc.Threads (starts (Function.update slabs k self)) rings)
    (hx : x ∈ rings (k, kind)) :
    ∃ desc s, self.removeFrom h kind x = some (self.setStart kind s, { h with desc := desc }) ∧
      desc.Threads (starts (Function.update slabs k (self.setStart kind s)))
        (Function.update rings (k, kind) ((rings (k, kind)).erase x)) ∧
      ∀ p, (desc p).core = (h.desc p).core := by
  obtain ⟨desc, hremove, hthreads, hcore⟩ := ht.removeRing hx
  rw [← starts_update] at hthreads
  simp only [starts, Function.update_self] at hremove
  refine ⟨desc, _, ?_, hthreads, hcore⟩
  rw [SCAllocator.removeFrom, hremove]
  rfl

theorem insertInto_spec {h : Heap σ}
    (ht : h.desc.Threads (starts (Function.update slabs k self)) rings)
    (hx : ∀ j, x ∉ rings j) (hx0 : x ≠ 0) (kind : Kind) :
    ∃ desc s, self.insertInto h kind x = some (self.setStart kind s, { h with desc := desc }) ∧
      desc.Threads (starts (Function.update slabs k (self.setStart kind s)))
        (Function.update rings (k, kind) (rings (k, kind) ++ [x])) ∧
      ∀ p, (desc p).core = (h.desc p).core := by
  obtain ⟨desc, hinsert, hthreads, hcore⟩ := ht.insertRing (i := (k, kind)) hx hx0
  rw [← starts_update] at hthreads
  simp only [starts, Function.update_self] at hinsert
  refine ⟨desc, _, ?_, hthreads, hcore⟩
  rw [SCAllocator.insertInto, hinsert]
  rfl

/-- The start of the ring of empty pages is removed by counting instead of comparing. -/
theorem removeEmpty_spec {h : Heap σ}
    (ht : h.desc.Threads (starts (Function.update slabs k self)) rings)
    (hcount : self.emptyCount = (rings (k, .empty)).length) (hstart : self.emptyStart ≠ 0) :
    self.emptyStart ∈ rings (k, .empty) ∧
    ∃ desc self', self.removeEmpty h = some (self', { h with desc := desc }, self.emptyStart) ∧
      (∃ s, self' = { self.setStart .empty s with emptyCount := self.emptyCount - 1 }) ∧
      desc.Threads (starts (Function.update slabs k self'))
        (Function.update rings (k, .empty) ((rings (k, .empty)).erase self.emptyStart)) ∧
      ∀ p, (desc p).core = (h.desc p).core := by
  have hs : starts (Function.update slabs k self) (k, .empty) = self.emptyStart := by
    simp [starts, SCAllocator.start]
  have hmem : self.emptyStart ∈ rings (k, .empty) := by
    have := ht.start_mem (i := (k, .empty)) (by rwa [hs])
    rwa [hs] at this
  obtain ⟨m, hm⟩ := ht.exists_tail (i := (k, .empty)) (by rwa [hs])
  rw [hs] at hm
  obtain ⟨hnext, hprev⟩ := ht.reread hmem
  refine ⟨hmem, h.desc.unlinked self.emptyStart,
    { self.setStart .empty (((rings (k, .empty)).erase self.emptyStart).headD 0) with
      emptyCount := self.emptyCount - 1 }, ?_, ⟨_, rfl⟩, ?_, fun p => Descs.unlinked_core _ p⟩
  · have hpos : 0 < self.emptyCount := by rw [hcount, hm]; simp
    have hhead : ((rings (k, .empty)).erase self.emptyStart).headD 0 =
        if 1 < self.emptyCount then (h.desc self.emptyStart).next else 0 := by
      have hring := ht.ring (k, .empty)
      rw [hm] at hring
      rw [hcount, hm, List.erase_cons_head]
      cases m with
      | nil => rfl
      | cons b m =>
          rw [if_pos (by simp)]
          exact hring.follows_head.1.symm
    simp only [SCAllocator.removeEmpty, hstart, hpos, ne_eq, not_false_eq_true, and_self, if_true,
      ht.getPrev hmem, ht.getNext hmem, Option.bind_eq_bind, Option.bind_some, hnext, hprev, hhead]
    rfl
  · have hstarts := ht.unlinked hmem
    rw [← starts_update] at hstarts
    rwa [(starts_congr fun kind => by cases kind <;> rfl :
      _ = starts (Function.update slabs k (self.setStart .empty _)))]

end Rings

/-- Changing a descriptor outside its links. -/
theorem update_links (desc : Descs) (d : Nat) (page : ObjectPage)
    (hprev : page.prev = (desc d).prev) (hnext : page.next = (desc d).next) (p : Nat) :
    (Function.update desc d page p).prev = (desc p).prev ∧
      (Function.update desc d page p).next = (desc p).next := by
  by_cases hp : p = d
  · subst hp
    rw [Function.update_self]
    exact ⟨hprev, hnext⟩
  · rw [Function.update_of_ne hp]
    exact ⟨rfl, rfl⟩

/-- Descriptor `d` is in the hands of allocator `k`. The state `self₁`, `h₁` with the
rings `R` has been reached from `slabs`, `h` with the rings of `g`. -/
structure InHand [DecidableEq κ] (cfg : κ → Config) (slabs : κ → SCAllocator) (h : Heap σ)
    (g : Ghost κ) (k : κ) (d : Nat) (self₁ : SCAllocator) (h₁ : Heap σ)
    (R : κ × Kind → List Nat) : Prop where
  threads : h₁.desc.Threads (starts (Function.update slabs k self₁)) R
  absent : ∀ i, d ∉ R i
  ne_zero : d ≠ 0
  others : ∀ d' ≠ d, ∀ i, d' ∈ R i ↔ d' ∈ g.rings i
  old : ∀ i, d ∈ g.rings i → i.1 = k
  configured : Configured (cfg k) self₁
  emptyCount : ∀ k', (Function.update slabs k self₁ k').emptyCount = (R (k', .empty)).length
  core : ∀ d' ≠ d, (h₁.desc d').core = (h.desc d').core
  created : ∀ d', d' ∈ h₁.created ↔ d' = d ∨ d' ∈ h.created
  nodup : h₁.created.Nodup
  small : d < 2 ^ 47
  bump : h₁.pgBump.Ok h₁.created

/-- The rings after `d` has been put on ring `b`. -/
def putRing [DecidableEq κ] (R : κ × Kind → List Nat) (k : κ) (b : Kind) (d : Nat) :
    κ × Kind → List Nat :=
  Function.update R (k, b) (R (k, b) ++ [d])

namespace InHand

variable [DecidableEq κ] {cfg : κ → Config} {Holds : σ → Mem → RadixTree → Set Block → Prop}
  {B : PageBackend σ} {slabs : κ → SCAllocator} {h h₁ h' : Heap σ} {g g' : Ghost κ} {k : κ}
  {b kind : Kind} {d : Nat} {self₁ self' : SCAllocator} {R : κ × Kind → List Nat}

/-- Changes to the heap that keep the links. -/
theorem congr (hand : InHand cfg slabs h g k d self₁ h₁ R)
    (links : ∀ p, (h'.desc p).prev = (h₁.desc p).prev ∧ (h'.desc p).next = (h₁.desc p).next)
    (core : ∀ d' ≠ d, (h'.desc d').core = (h₁.desc d').core)
    (created : h'.created = h₁.created) (pgBump : h'.pgBump = h₁.pgBump) :
    InHand cfg slabs h g k d self₁ h' R where
  threads := hand.threads.congr fun _ p _ => links p
  absent := hand.absent
  ne_zero := hand.ne_zero
  others := hand.others
  old := hand.old
  configured := hand.configured
  emptyCount := hand.emptyCount
  core := fun d' hd => (core d' hd).trans (hand.core d' hd)
  created := by rw [created]; exact hand.created
  nodup := by rw [created]; exact hand.nodup
  small := hand.small
  bump := by rw [created, pgBump]; exact hand.bump

/-- The descriptor that a removal leaves in the hands of its allocator. -/
theorem of_remove (inv : Inv cfg Holds slabs h g) (hd : d ∈ g.rings (k, kind))
    {desc : Descs} (hself : Configured (cfg k) self₁)
    (threads : desc.Threads (starts (Function.update slabs k self₁))
      (Function.update g.rings (k, kind) ((g.rings (k, kind)).erase d)))
    (core : ∀ p ≠ d, (desc p).core = (h.desc p).core)
    (emptyCount : self₁.emptyCount =
      if kind = .empty then (slabs k).emptyCount - 1 else (slabs k).emptyCount) :
    InHand cfg slabs h g k d self₁ { h with desc }
      (Function.update g.rings (k, kind) ((g.rings (k, kind)).erase d)) where
  threads := threads
  absent := fun _ => not_mem_erase inv.threads hd
  ne_zero := inv.ne_zero hd
  others := fun d' hd' i => mem_erase_iff hd'
  old := fun i hi => congrArg Prod.fst (inv.threads.apart hi hd)
  configured := hself
  emptyCount := by
    intro k'
    by_cases hk : k' = k
    · subst hk
      rw [Function.update_self, emptyCount, inv.emptyCount]
      by_cases hkind : kind = .empty
      · subst hkind
        rw [if_pos rfl, Function.update_self, List.length_erase_of_mem hd]
      · rw [if_neg hkind, Function.update_of_ne (by simpa [eq_comm] using hkind)]
    · rw [Function.update_of_ne hk, Function.update_of_ne (by simp [hk]), inv.emptyCount]
  core := core
  created := fun d' => by
    constructor
    · exact .inr
    · rintro (rfl | hd')
      · exact inv.created.mpr ⟨_, hd⟩
      · exact hd'
  nodup := inv.nodup
  small := inv.lt_of_mem hd
  bump := inv.bump

/-- Putting the descriptor on a ring. -/
theorem put (hand : InHand cfg slabs h g k d self₁ h₁ R) (b : Kind) :
    ∃ desc s, self₁.insertInto h₁ b d = some (self₁.setStart b s, { h₁ with desc := desc }) ∧
      desc.Threads (starts (Function.update slabs k (self₁.setStart b s))) (putRing R k b d) ∧
      ∀ p, (desc p).core = (h₁.desc p).core :=
  insertInto_spec hand.threads hand.absent hand.ne_zero b

theorem put_others (hand : InHand cfg slabs h g k d self₁ h₁ R) {d' : Nat} (hd : d' ≠ d)
    (i : κ × Kind) : d' ∈ putRing R k b d i ↔ d' ∈ g.rings i :=
  (mem_concat_iff hd).trans (hand.others d' hd i)

theorem put_here (hand : InHand cfg slabs h g k d self₁ h₁ R) (i : κ × Kind) :
    d ∈ putRing R k b d i ↔ i = (k, b) :=
  self_mem_concat_iff hand.absent

/-- The invariant holds again once the descriptor is on a ring. -/
theorem inv (hand : InHand cfg slabs h g k d self₁ h₁ R) (law : Lawful B Holds)
    (inv : Inv cfg Holds slabs h g) (ok : (cfg k).Ok) (move : Moves cfg h h' g g' k b d)
    (rings : g'.rings = putRing R k b d)
    (threads : h'.desc.Threads (starts (Function.update slabs k self')) g'.rings)
    (configured : Configured (cfg k) self')
    (emptyCount : self'.emptyCount =
      if b = .empty then self₁.emptyCount + 1 else self₁.emptyCount)
    (created : h'.created = h₁.created) (pgBump : h'.pgBump = h₁.pgBump)
    (holds : Holds h'.back h'.mem h'.tree (runs cfg h'.desc g'))
    (entry : ∀ k' d', d' ≠ d → g.Mapped k' d' →
      ∀ p ∈ ((cfg k').run (h.desc d').data).pages, h'.tree.entry p = h.tree.entry p)
    (entryHere : b ≠ .uninit → ∀ p ∈ ((cfg k).run (h'.desc d).data).pages, h'.tree.entry p = d) :
    Inv cfg Holds (Function.update slabs k self') h' g' := by
  refine move.inv law inv ok hand.old (fun k' => ?_) threads (fun k' => ?_)
    (by rw [created]; exact hand.created) (by rw [created]; exact hand.nodup) hand.small
    (by rw [created, pgBump]; exact hand.bump) holds entry entryHere
  · by_cases hk : k' = k
    · subst hk
      rwa [Function.update_self]
    · rw [Function.update_of_ne hk]
      exact inv.configured k'
  · have hcount := hand.emptyCount k'
    rw [rings, putRing]
    by_cases hk : k' = k
    · subst hk
      rw [Function.update_self] at hcount ⊢
      rw [emptyCount]
      by_cases hb : b = .empty
      · subst hb
        rw [if_pos rfl, Function.update_self, hcount, List.length_append, List.length_singleton]
      · rw [if_neg hb, Function.update_of_ne (by simpa [eq_comm] using hb), hcount]
    · rw [Function.update_of_ne hk] at hcount ⊢
      rw [Function.update_of_ne (by simp [hk]), hcount]

end InHand

end UniAlloc.Slab
