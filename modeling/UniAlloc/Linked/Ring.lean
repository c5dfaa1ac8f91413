import Mathlib.Data.List.Cycle
import Mathlib.Logic.Function.Basic

/-!
# Circular, doubly linked rings

A ring is a closed cycle of nodes in which the two link functions are inverse to
each other. Several rings may share the link fields of their nodes; `LinkedRings` is
such a family together with a start pointer for each ring, null exactly for an
empty one. The rules say which link updates unlink a node and which append one.
-/

variable {ι α : Type*}

/-- `y` follows `x`. -/
def Follows (prev next : α → α) (x y : α) : Prop := next x = y ∧ prev y = x

/-- The nodes of `l`, in order, form a closed cycle. -/
def LinkedRing (prev next : α → α) (l : List α) : Prop :=
  Cycle.Chain (Follows prev next) (l : Cycle α)

namespace LinkedRing

variable {prev next prev' next' : α → α} {a x : α} {l m : List α}

@[simp] theorem nil : LinkedRing prev next [] := Cycle.Chain.nil _

theorem cons_iff :
    LinkedRing prev next (a :: m) ↔ List.IsChain (Follows prev next) (a :: (m ++ [a])) :=
  Cycle.chain_coe_cons _ a m

theorem singleton_iff : LinkedRing prev next [a] ↔ next a = a ∧ prev a = a :=
  Cycle.chain_singleton _ a

/-- A ring may be read from any of its nodes. -/
theorem rotate (h : LinkedRing prev next l) (rotated : l ~r m) : LinkedRing prev next m := by
  rwa [LinkedRing, ← Cycle.coe_eq_coe.mpr rotated]

/-- Every node has a ring that starts with it. -/
theorem exists_cons (h : LinkedRing prev next l) (hx : x ∈ l) :
    ∃ m, l ~r x :: m ∧ LinkedRing prev next (x :: m) := by
  obtain ⟨s, t, rfl⟩ := List.append_of_mem hx
  have rotated : s ++ x :: t ~r x :: (t ++ s) := List.isRotated_append
  exact ⟨t ++ s, rotated, h.rotate rotated⟩

/-- Links outside the ring do not matter. -/
theorem congr (h : LinkedRing prev next l) (hprev : ∀ y ∈ l, prev' y = prev y)
    (hnext : ∀ y ∈ l, next' y = next y) : LinkedRing prev' next' l := by
  cases l with
  | nil => exact nil
  | cons a m =>
      rw [cons_iff] at h ⊢
      refine List.IsChain.imp_of_mem_imp (fun u v hu hv huv => ?_) h
      have mem : ∀ {w}, w ∈ a :: (m ++ [a]) → w ∈ a :: m := by simp [or_comm]
      exact ⟨(hnext u (mem hu)).trans huv.1, (hprev v (mem hv)).trans huv.2⟩

theorem follows_head (h : LinkedRing prev next (a :: m)) :
    Follows prev next a ((m ++ [a]).head (by simp)) :=
  (cons_iff.mp h).rel_head? (List.head?_eq_some_head _)

/-- The successor of a node in the middle. -/
theorem next_append {p q : List α} (h : LinkedRing prev next (p ++ x :: q)) :
    next x = (q ++ p ++ [x]).head (by simp) :=
  (h.rotate List.isRotated_append : LinkedRing prev next (x :: (q ++ p))).follows_head.1

theorem follows_last (h : LinkedRing prev next (a :: m)) :
    Follows prev next ((a :: m).getLast (by simp)) a := by
  rw [cons_iff, ← List.cons_append] at h
  exact h.rel_getLast_head_of_append (by simp) (by simp)

theorem next_mem (h : LinkedRing prev next l) (hx : x ∈ l) : next x ∈ l := by
  obtain ⟨m, rotated, hring⟩ := h.exists_cons hx
  rw [rotated.mem_iff, hring.follows_head.1]
  have hmem : (m ++ [x]).head (by simp) ∈ m ++ [x] := List.head_mem _
  exact (List.perm_append_singleton x m).mem_iff.mp hmem

theorem prev_mem (h : LinkedRing prev next l) (hx : x ∈ l) : prev x ∈ l := by
  obtain ⟨m, rotated, hring⟩ := h.exists_cons hx
  rw [rotated.mem_iff, hring.follows_last.2]
  exact List.getLast_mem _

/-- The links of a ring are inverse to each other. -/
theorem prev_next (h : LinkedRing prev next l) (hx : x ∈ l) : prev (next x) = x := by
  obtain ⟨m, -, hring⟩ := h.exists_cons hx
  rw [hring.follows_head.1]
  exact hring.follows_head.2

theorem next_prev (h : LinkedRing prev next l) (hx : x ∈ l) : next (prev x) = x := by
  obtain ⟨m, -, hring⟩ := h.exists_cons hx
  rw [hring.follows_last.2]
  exact hring.follows_last.1

/-- A node is its own successor exactly when it is alone. -/
theorem next_eq_self_iff (h : LinkedRing prev next (a :: m)) (nodup : (a :: m).Nodup) :
    next a = a ↔ m = [] := by
  rw [h.follows_head.1]
  cases m with
  | nil => simp
  | cons b m =>
      simp only [List.cons_append, List.head_cons, reduceCtorEq, iff_false]
      exact fun hb => (List.nodup_cons.mp nodup).1 (hb ▸ List.mem_cons_self)

variable [DecidableEq α]

/-- The neighbours of `x` are linked to each other. -/
theorem unlink (h : LinkedRing prev next (x :: m)) (hx : x ∉ m)
    (hprev : ∀ y ∈ m, prev' y = if y = next x then prev x else prev y)
    (hnext : ∀ y ∈ m, next' y = if y = prev x then next x else next y) :
    LinkedRing prev' next' m := by
  cases m with
  | nil => exact nil
  | cons b m =>
      have hb : next x = b := h.follows_head.1
      have hz : prev x = (b :: m).getLast (by simp) := by
        simpa [List.getLast_cons] using h.follows_last.2
      have hlast : Follows prev next ((b :: m).getLast (by simp)) x := by
        simpa [List.getLast_cons] using h.follows_last
      rw [cons_iff, List.cons_append, List.isChain_cons_cons, ← List.cons_append] at h
      rw [cons_iff, ← List.cons_append]
      refine .append (h.2.left_of_append.imp_of_mem_imp fun u v hu hv huv => ⟨?_, ?_⟩)
        (List.isChain_singleton b) fun u hu v hv => ?_
      · rw [hnext u hu, if_neg]
        · exact huv.1
        · intro hux
          have hvx : v = x := by rw [← huv.1, hux, hz, hlast.1]
          exact hx (hvx ▸ hv)
      · rw [hprev v hv, if_neg]
        · exact huv.2
        · intro hvb
          have hux : u = x := by rw [← huv.2, hvb, hb, h.1.2]
          exact hx (hux ▸ hu)
      · obtain rfl : v = b := by simpa [eq_comm] using hv
        have hu : u = (v :: m).getLast (by simp) := by
          rw [List.getLast?_eq_some_getLast (by simp)] at hu
          exact (Option.some.inj hu).symm
        subst hu
        constructor
        · rw [hnext _ (List.getLast_mem _), if_pos hz.symm, hb]
        · rw [hprev _ List.mem_cons_self, if_pos hb.symm, hz]

/-- A node linked between the last node and the first. -/
theorem append (h : LinkedRing prev next (a :: m)) (nodup : (a :: m).Nodup) (hx : x ∉ a :: m)
    (hprev : ∀ y, prev' y = if y = a then x else if y = x then prev a else prev y)
    (hnext : ∀ y, next' y = if y = prev a then x else if y = x then a else next y) :
    LinkedRing prev' next' (a :: m ++ [x]) := by
  have hz := h.follows_last
  have hxz : x ≠ prev a := fun e => hx (e ▸ h.prev_mem List.mem_cons_self)
  have hxa : x ≠ a := fun e => hx (e ▸ List.mem_cons_self)
  rw [cons_iff, ← List.cons_append] at h
  rw [List.cons_append, cons_iff, ← List.cons_append, ← List.cons_append]
  refine .append (.append (h.left_of_append.imp_of_mem_tail_imp fun u v hu hv huv => ⟨?_, ?_⟩)
    (List.isChain_singleton x) fun u hu v hv => ?_) (List.isChain_singleton a) fun u hu v hv => ?_
  · have hva : v ≠ a := fun e => (List.nodup_cons.mp nodup).1 (e ▸ hv)
    rw [hnext, if_neg, if_neg (fun e : u = x => hx (e ▸ hu)), huv.1]
    intro huz
    rw [hz.2] at huz
    exact hva (huv.1 ▸ huz ▸ hz.1)
  · have hva : v ≠ a := fun e => (List.nodup_cons.mp nodup).1 (e ▸ hv)
    rw [hprev, if_neg hva, if_neg (fun e : v = x => hx (e ▸ List.mem_cons_of_mem a hv)),
      huv.2]
  · obtain rfl : x = v := by simpa using hv
    have hu : u = prev a := by
      rw [List.getLast?_eq_some_getLast (by simp)] at hu
      rw [hz.2]
      exact (Option.some.inj hu).symm
    constructor
    · rw [hnext, if_pos hu]
    · rw [hprev, if_neg hxa, if_pos rfl, hu]
  · obtain rfl : a = v := by simpa using hv
    obtain rfl : x = u := by
      rw [List.getLast?_append_of_ne_nil _ (by simp)] at hu
      simpa using hu
    constructor
    · rw [hnext, if_neg hxz, if_pos rfl]
    · rw [hprev, if_pos rfl]

end LinkedRing

/-- A family of rings that share their link fields. -/
structure LinkedRings (prev next : α → α) (null : α) (start : ι → α) (rings : ι → List α) :
    Prop where
  ring : ∀ i, LinkedRing prev next (rings i)
  start_eq : ∀ i, start i = (rings i).headD null
  nodup : ∀ i, (rings i).Nodup
  apart : ∀ {i j x}, x ∈ rings i → x ∈ rings j → i = j
  ne_null : ∀ {i x}, x ∈ rings i → x ≠ null

namespace LinkedRings

variable {prev next prev' next' : α → α} {null x : α} {start start' : ι → α}
  {rings : ι → List α} {i j : ι}

theorem start_eq_null_iff (h : LinkedRings prev next null start rings) (i : ι) :
    start i = null ↔ rings i = [] := by
  rw [h.start_eq]
  constructor
  · intro hnull
    cases hl : rings i with
    | nil => rfl
    | cons a m =>
        rw [hl] at hnull
        exact absurd hnull (h.ne_null (show a ∈ rings i by simp [hl]))
  · rintro hl
    rw [hl]
    rfl

theorem start_mem (h : LinkedRings prev next null start rings) (hi : start i ≠ null) :
    start i ∈ rings i := by
  cases hl : rings i with
  | nil => exact absurd ((h.start_eq_null_iff i).mpr hl) hi
  | cons a m =>
      rw [h.start_eq, hl]
      exact List.mem_cons_self

theorem exists_tail (h : LinkedRings prev next null start rings) (hi : start i ≠ null) :
    ∃ m, rings i = start i :: m := by
  cases hl : rings i with
  | nil => exact absurd ((h.start_eq_null_iff i).mpr hl) hi
  | cons a m => exact ⟨m, by rw [h.start_eq, hl]; rfl⟩

/-- The start node is its own successor exactly when its ring has no other. -/
theorem next_start_iff (h : LinkedRings prev next null start rings) (hi : start i ≠ null) :
    next (start i) = start i ↔ rings i = [start i] := by
  obtain ⟨m, hm⟩ := h.exists_tail hi
  have hring := h.ring i
  have hnodup := h.nodup i
  rw [hm] at hring hnodup ⊢
  rw [hring.next_eq_self_iff hnodup]
  simp

/-- Links of nodes that are on no ring do not matter. -/
theorem congr (h : LinkedRings prev next null start rings)
    (hprev : ∀ i, ∀ y ∈ rings i, prev' y = prev y)
    (hnext : ∀ i, ∀ y ∈ rings i, next' y = next y) :
    LinkedRings prev' next' null start rings :=
  ⟨fun i => (h.ring i).congr (hprev i) (hnext i), h.start_eq, h.nodup, h.apart, h.ne_null⟩

section Update

variable [DecidableEq ι] [DecidableEq α]

/-- Unlinking a node of ring `i`. -/
theorem remove (h : LinkedRings prev next null start rings) (hx : x ∈ rings i)
    (hprev : ∀ y, y ≠ x → prev' y = if y = next x then prev x else prev y)
    (hnext : ∀ y, y ≠ x → next' y = if y = prev x then next x else next y)
    (hstart : ∀ j, start' j = if j = i then ((rings i).erase x).headD null else start j) :
    LinkedRings prev' next' null start' (Function.update rings i ((rings i).erase x)) := by
  have hmem : ∀ {j y}, y ∈ Function.update rings i ((rings i).erase x) j → y ∈ rings j := by
    intro j y hy
    by_cases hj : j = i
    · subst hj
      rw [Function.update_self] at hy
      exact List.mem_of_mem_erase hy
    · rwa [Function.update_of_ne hj] at hy
  refine ⟨fun j => ?_, fun j => ?_, fun j => ?_, fun hy hy' => h.apart (hmem hy) (hmem hy'),
    fun hy => h.ne_null (hmem hy)⟩
  · by_cases hj : j = i
    · subst hj
      rw [Function.update_self]
      obtain ⟨s, t, hst⟩ := List.append_of_mem hx
      have hnodup := h.nodup j
      have hring := h.ring j
      rw [hst] at hring hnodup ⊢
      have hxs : x ∉ s := fun hs => (List.disjoint_of_nodup_append hnodup hs) List.mem_cons_self
      have hxt : x ∉ t := (List.nodup_cons.mp (List.nodup_append.mp hnodup).2.1).1
      rw [List.erase_append_right _ hxs, List.erase_cons_head]
      have hring : LinkedRing prev next (x :: (t ++ s)) := hring.rotate List.isRotated_append
      have hxst : x ∉ t ++ s := by simp [hxs, hxt]
      have hne : ∀ y ∈ t ++ s, y ≠ x := fun y hy e => hxst (e ▸ hy)
      exact (hring.unlink hxst (fun y hy => hprev y (hne y hy))
        (fun y hy => hnext y (hne y hy))).rotate List.isRotated_append
    · rw [Function.update_of_ne hj]
      have hother : ∀ y ∈ rings j, ∀ z ∈ rings i, y ≠ z := by
        rintro y hy z hz rfl
        exact hj (h.apart hy hz)
      refine (h.ring j).congr (fun y hy => ?_) (fun y hy => ?_)
      · rw [hprev y (hother y hy x hx), if_neg (hother y hy _ ((h.ring i).next_mem hx))]
      · rw [hnext y (hother y hy x hx), if_neg (hother y hy _ ((h.ring i).prev_mem hx))]
  · rw [hstart]
    by_cases hj : j = i
    · subst hj
      rw [if_pos rfl, Function.update_self]
    · rw [if_neg hj, Function.update_of_ne hj, h.start_eq]
  · by_cases hj : j = i
    · subst hj
      rw [Function.update_self]
      exact (h.nodup j).erase x
    · rw [Function.update_of_ne hj]
      exact h.nodup j

omit [DecidableEq α] in
/-- The bookkeeping of an insertion, apart from the ring itself. -/
theorem insert_aux (h : LinkedRings prev next null start rings) (hx : ∀ j, x ∉ rings j)
    (hnull : x ≠ null) (hring : LinkedRing prev' next' (rings i ++ [x]))
    (hprev : ∀ j, j ≠ i → ∀ y ∈ rings j, prev' y = prev y)
    (hnext : ∀ j, j ≠ i → ∀ y ∈ rings j, next' y = next y)
    (hstart : ∀ j, start' j = if j = i ∧ rings i = [] then x else start j) :
    LinkedRings prev' next' null start' (Function.update rings i (rings i ++ [x])) := by
  have hmem : ∀ {j y}, y ∈ Function.update rings i (rings i ++ [x]) j →
      y ∈ rings j ∨ j = i ∧ y = x := by
    intro j y hy
    by_cases hj : j = i
    · subst hj
      rw [Function.update_self] at hy
      simpa using hy
    · rw [Function.update_of_ne hj] at hy
      exact .inl hy
  refine ⟨fun j => ?_, fun j => ?_, fun j => ?_, fun {j k y} hy hy' => ?_, fun hy => ?_⟩
  · by_cases hj : j = i
    · subst hj
      rwa [Function.update_self]
    · rw [Function.update_of_ne hj]
      exact (h.ring j).congr (hprev j hj) (hnext j hj)
  · rw [hstart]
    by_cases hj : j = i
    · subst hj
      rw [Function.update_self]
      cases hl : rings j with
      | nil => simp
      | cons a m => simp [h.start_eq, hl]
    · rw [if_neg (fun e => hj e.1), Function.update_of_ne hj, h.start_eq]
  · by_cases hj : j = i
    · subst hj
      rw [Function.update_self]
      exact List.nodup_append.mpr ⟨h.nodup j, List.nodup_singleton x, by
        rintro y hy z hz rfl
        exact hx j (List.mem_singleton.mp hz ▸ hy)⟩
    · rw [Function.update_of_ne hj]
      exact h.nodup j
  · obtain hy | ⟨hj, hyx⟩ := hmem hy
    · obtain hy' | ⟨-, hyx⟩ := hmem hy'
      · exact h.apart hy hy'
      · exact absurd (hyx ▸ hy) (hx j)
    · obtain hy' | ⟨hk, -⟩ := hmem hy'
      · exact absurd (hyx ▸ hy') (hx k)
      · exact hj.trans hk.symm
  · obtain hy | ⟨-, rfl⟩ := hmem hy
    · exact h.ne_null hy
    · exact hnull

/-- Appending a node to a ring that is not empty: it is linked before the start. -/
theorem insert (h : LinkedRings prev next null start rings) (hx : ∀ j, x ∉ rings j)
    (hnull : x ≠ null) (hi : start i ≠ null)
    (hprev : ∀ y, prev' y =
      if y = start i then x else if y = x then prev (start i) else prev y)
    (hnext : ∀ y, next' y =
      if y = prev (start i) then x else if y = x then start i else next y) :
    LinkedRings prev' next' null start (Function.update rings i (rings i ++ [x])) := by
  have hmem := h.start_mem hi
  have hother : ∀ {j}, j ≠ i → ∀ y ∈ rings j, ∀ z ∈ rings i, y ≠ z := by
    rintro j hj y hy z hz rfl
    exact hj (h.apart hy hz)
  have hne : ∀ {j}, ∀ y ∈ rings j, y ≠ x := fun y hy e => hx _ (e ▸ hy)
  obtain ⟨m, hm⟩ := h.exists_tail hi
  refine h.insert_aux hx hnull ?_ (fun j hj y hy => ?_) (fun j hj y hy => ?_) (fun j => ?_)
  · have hring := h.ring i
    have hnodup := h.nodup i
    have hxi := hx i
    rw [hm] at hring hnodup hxi ⊢
    exact hring.append hnodup hxi hprev hnext
  · rw [hprev, if_neg (hother hj y hy _ hmem), if_neg (hne y hy)]
  · rw [hnext, if_neg (hother hj y hy _ ((h.ring i).prev_mem hmem)), if_neg (hne y hy)]
  · rw [if_neg]
    rintro ⟨-, hnil⟩
    exact absurd (hm ▸ hnil) (List.cons_ne_nil _ _)

/-- The first node of a ring is linked to itself. -/
theorem insert_empty (h : LinkedRings prev next null start rings) (hx : ∀ j, x ∉ rings j)
    (hnull : x ≠ null) (hi : start i = null)
    (hprev : ∀ y, prev' y = if y = x then x else prev y)
    (hnext : ∀ y, next' y = if y = x then x else next y)
    (hstart : ∀ j, start' j = if j = i then x else start j) :
    LinkedRings prev' next' null start' (Function.update rings i (rings i ++ [x])) := by
  have hnil := (h.start_eq_null_iff i).mp hi
  have hne : ∀ {j}, ∀ y ∈ rings j, y ≠ x := fun y hy e => hx _ (e ▸ hy)
  refine h.insert_aux hx hnull ?_ (fun j _ y hy => ?_) (fun j _ y hy => ?_) (fun j => ?_)
  · rw [hnil, List.nil_append, LinkedRing.singleton_iff, hnext, hprev, if_pos rfl, if_pos rfl]
    exact ⟨rfl, rfl⟩
  · rw [hprev, if_neg (hne y hy)]
  · rw [hnext, if_neg (hne y hy)]
  · simp only [hstart, hnil, and_true]

end Update

end LinkedRings
