import UniAlloc.Slab.Backend
import UniAlloc.Linked.Ring

/-!
# The rings of descriptors

Every slab allocator has a ring for each kind of page, and the rings of all slab
allocators share the links of the descriptors. Each ring operation of the source
removes a descriptor from one ring or appends it to one, and leaves everything
but the links alone.
-/

namespace UniAlloc.Slab

/-- The part of a descriptor that is not links. -/
def ObjectPage.core (page : ObjectPage) : Nat × Nat × Nat := (page.counter, page.data, page.ptr)

namespace Descs

variable {ι : Type} {start start' : ι → Nat} {rings rings' : ι → List Nat} {desc desc' : Descs}
  {i : ι} {x : Nat}

/-- The rings of a family that runs through the descriptors. -/
def Threads (desc : Descs) (start : ι → Nat) (rings : ι → List Nat) : Prop :=
  LinkedRings (fun p => (desc p).prev) (fun p => (desc p).next) 0 start rings

/-- Changes outside the links do not matter. -/
theorem Threads.congr (h : desc.Threads start rings)
    (same : ∀ i, ∀ p ∈ rings i, (desc' p).prev = (desc p).prev ∧ (desc' p).next = (desc p).next) :
    desc'.Threads start rings :=
  LinkedRings.congr h (fun i p hp => (same i p hp).1) (fun i p hp => (same i p hp).2)

theorem Threads.getNext (h : desc.Threads start rings) (hx : x ∈ rings i) :
    desc.getNext x = some (desc x).next :=
  if_neg (h.ne_null ((h.ring i).next_mem hx))

theorem Threads.getPrev (h : desc.Threads start rings) (hx : x ∈ rings i) :
    desc.getPrev x = some (desc x).prev :=
  if_neg (h.ne_null ((h.ring i).prev_mem hx))

@[simp] theorem setPrev_core (idx v p : Nat) : (setPrev desc idx v p).core = (desc p).core := by
  by_cases h : p = idx
  · subst h
    simp only [setPrev, Function.update_self, ObjectPage.core]
  · rw [setPrev, Function.update_of_ne h]

@[simp] theorem setNext_core (idx v p : Nat) : (setNext desc idx v p).core = (desc p).core := by
  by_cases h : p = idx
  · subst h
    simp only [setNext, Function.update_self, ObjectPage.core]
  · rw [setNext, Function.update_of_ne h]

theorem setPrev_prev (idx v p : Nat) :
    (setPrev desc idx v p).prev = if p = idx then v else (desc p).prev := by
  rw [setPrev, Function.update_apply]
  split <;> rfl

@[simp] theorem setPrev_next (idx v p : Nat) : (setPrev desc idx v p).next = (desc p).next := by
  by_cases h : p = idx
  · subst h
    simp only [setPrev, Function.update_self]
  · rw [setPrev, Function.update_of_ne h]

theorem setNext_next (idx v p : Nat) :
    (setNext desc idx v p).next = if p = idx then v else (desc p).next := by
  rw [setNext, Function.update_apply]
  split <;> rfl

@[simp] theorem setNext_prev (idx v p : Nat) : (setNext desc idx v p).prev = (desc p).prev := by
  by_cases h : p = idx
  · subst h
    simp only [setNext, Function.update_self]
  · rw [setNext, Function.update_of_ne h]

/-- The two link writes that take `x` out of a ring. -/
def unlinked (desc : Descs) (x : Nat) : Descs :=
  ((desc.setPrev (desc x).next (desc x).prev).setNext (desc x).prev (desc x).next)

@[simp] theorem unlinked_core (x p : Nat) : (unlinked desc x p).core = (desc p).core := by
  simp [unlinked]

/-- The links read again after the first write are the same. -/
theorem Threads.reread (h : desc.Threads start rings) (hx : x ∈ rings i) :
    (desc.setPrev (desc x).next (desc x).prev).getNext x = some (desc x).next ∧
      (desc.setPrev (desc x).next (desc x).prev).getPrev x = some (desc x).prev := by
  have hnext : (desc x).next ≠ 0 := h.ne_null ((h.ring i).next_mem hx)
  have hprev : (desc x).prev ≠ 0 := h.ne_null ((h.ring i).prev_mem hx)
  constructor
  · simp only [Descs.getNext, setPrev_next, if_neg hnext]
  · simp only [Descs.getPrev, setPrev_prev, ite_self, if_neg hprev]

variable [DecidableEq ι]

theorem Threads.unlinked (h : desc.Threads start rings) (hx : x ∈ rings i) :
    (desc.unlinked x).Threads
      (Function.update start i (((rings i).erase x).headD 0))
      (Function.update rings i ((rings i).erase x)) := by
  refine LinkedRings.remove h hx (fun y _ => ?_) (fun y _ => ?_) (fun j => ?_)
  · simp only [Descs.unlinked, setNext_prev, setPrev_prev]
  · simp only [Descs.unlinked, setNext_next, setPrev_next]
  · rw [Function.update_apply]

/-- A member of ring `i` is removed from it. -/
theorem Threads.removeRing (h : desc.Threads start rings) (hx : x ∈ rings i) :
    ∃ desc', desc.removeRing (start i) x = some (desc', ((rings i).erase x).headD 0) ∧
      desc'.Threads (Function.update start i (((rings i).erase x).headD 0))
        (Function.update rings i ((rings i).erase x)) ∧
      ∀ p, (desc' p).core = (desc p).core := by
  have hstart : start i ≠ 0 := fun h0 => by
    rw [(h.start_eq_null_iff i).mp h0] at hx
    cases hx
  have hmem := h.start_mem hstart
  by_cases hsingle : (desc (start i)).next = start i
  · have hring : rings i = [start i] := (h.next_start_iff hstart).mp hsingle
    obtain rfl : x = start i := by simpa [hring] using hx
    refine ⟨desc, ?_, ?_, fun p => rfl⟩
    · simp [Descs.removeRing, hstart, h.getNext hmem, hsingle, hring]
    · -- The links of the last node are left as they are, and no ring runs through it.
      refine h.unlinked hx |>.congr fun j p hp => ?_
      have hne : p ≠ start i := by
        rintro rfl
        by_cases hj : j = i
        · subst hj
          simp [hring] at hp
        · rw [Function.update_of_ne hj] at hp
          exact hj (h.apart hp hmem)
      have hprev : (desc (start i)).prev = start i := by
        have := (h.ring i).prev_mem hmem
        rw [hring] at this
        simpa using this
      simp [Descs.unlinked, setNext_next, setPrev_prev, hsingle, hprev, hne]
  · refine ⟨desc.unlinked x, ?_, h.unlinked hx, fun p => unlinked_core x p⟩
    have hhead : ((rings i).erase x).headD 0 = if start i = x then (desc x).next else start i := by
      obtain ⟨m, hm⟩ := h.exists_tail hstart
      rw [hm]
      split
      · next hxs =>
          subst hxs
          have hring := h.ring i
          rw [hm] at hring
          have hnext := hring.follows_head.1
          rw [List.erase_cons_head]
          cases m with
          | nil => exact absurd hnext hsingle
          | cons b m => exact hnext.symm
      · next hxs => rw [List.erase_cons_tail (by simpa using hxs), List.headD_cons]
    obtain ⟨hnext, hprev⟩ := h.reread hx
    simp only [Descs.removeRing, ne_eq, hstart, not_false_eq_true, if_true, h.getNext hmem,
      Option.bind_eq_bind, Option.bind_some, hsingle, if_false, h.getNext hx, h.getPrev hx,
      hnext, hprev, hhead]
    rfl

/-- A descriptor that is on no ring is appended to ring `i`. -/
theorem Threads.insertRing (h : desc.Threads start rings) (hx : ∀ j, x ∉ rings j) (hx0 : x ≠ 0) :
    ∃ desc', desc.insertRing (start i) x = some (desc', (rings i ++ [x]).headD 0) ∧
      desc'.Threads (Function.update start i ((rings i ++ [x]).headD 0))
        (Function.update rings i (rings i ++ [x])) ∧
      ∀ p, (desc' p).core = (desc p).core := by
  by_cases hstart : start i = 0
  · have hnil := (h.start_eq_null_iff i).mp hstart
    refine ⟨setNext (setPrev desc x x) x x, ?_, ?_, fun p => by simp⟩
    · simp [Descs.insertRing, hstart, hnil]
    · refine LinkedRings.insert_empty h hx hx0 hstart (fun y => ?_) (fun y => ?_) (fun j => ?_)
      · simp only [setNext_prev, setPrev_prev]
      · simp only [setNext_next, setPrev_next]
      · rw [Function.update_apply, hnil]
        rfl
  · have hmem := h.start_mem hstart
    have hhead : (rings i ++ [x]).headD 0 = start i := by
      obtain ⟨m, hm⟩ := h.exists_tail hstart
      rw [hm]
      rfl
    rw [hhead, Function.update_eq_self]
    refine ⟨setPrev (setNext (setNext (setPrev desc x (desc (start i)).prev) x (start i))
      (desc (start i)).prev x) (start i) x, ?_, ?_, fun p => by simp⟩
    · simp [Descs.insertRing, hstart, h.getPrev hmem]
    · refine LinkedRings.insert h hx hx0 hstart (fun y => ?_) (fun y => ?_)
      · simp only [setPrev_prev, setNext_prev]
      · simp only [setPrev_next, setNext_next]

end Descs

end UniAlloc.Slab
