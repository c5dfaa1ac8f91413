import Mathlib.Data.List.Nodup

/-!
# Doubly linked, null terminated lists

`Linked prev next before l` says that the nodes of `l` are threaded in this
order through the two link functions, the first one pointing back to `before`.
The nodes and the place where links are stored are arbitrary; the rules below
say which link updates keep a list threaded.
-/

variable {α : Type*}

/-- The nodes of the list, in order, are threaded through `prev` and `next`. -/
def Linked (prev next : α → Option α) : Option α → List α → Prop
  | _, [] => True
  | before, a :: rest => prev a = before ∧ next a = rest.head? ∧ Linked prev next (some a) rest

namespace Linked

variable {prev next prev' next' : α → Option α} {before before' : Option α} {a b : α}
  {l : List α}

@[simp] theorem nil : Linked prev next before [] := trivial

/-- Links outside the list do not matter. -/
theorem congr (h : Linked prev next before l) (hprev : ∀ x ∈ l, prev' x = prev x)
    (hnext : ∀ x ∈ l, next' x = next x) : Linked prev' next' before l := by
  induction l generalizing before with
  | nil => trivial
  | cons a rest ih =>
      obtain ⟨hp, hn, hrest⟩ := h
      refine ⟨(hprev a List.mem_cons_self).trans hp, (hnext a List.mem_cons_self).trans hn, ?_⟩
      exact ih hrest (fun x hx => hprev x (List.mem_cons_of_mem a hx))
        (fun x hx => hnext x (List.mem_cons_of_mem a hx))

/-- Redirecting the back link of the first node, if there is one. -/
theorem redirect (h : Linked prev next before l)
    (hhead : ∀ x, l.head? = some x → prev' x = before')
    (hprev : ∀ x ∈ l.tail, prev' x = prev x) (hnext : ∀ x ∈ l, next' x = next x) :
    Linked prev' next' before' l := by
  cases l with
  | nil => trivial
  | cons a rest =>
      obtain ⟨-, hn, hrest⟩ := h
      refine ⟨hhead a rfl, (hnext a List.mem_cons_self).trans hn, ?_⟩
      exact hrest.congr hprev fun x hx => hnext x (List.mem_cons_of_mem a hx)

/-- The successor of a node of the list is a node of the list. -/
theorem mem_of_next (h : Linked prev next before l) (ha : a ∈ l) (hab : next a = some b) :
    b ∈ l := by
  induction l generalizing before with
  | nil => cases ha
  | cons c rest ih =>
      obtain ⟨-, hn, hrest⟩ := h
      rcases List.mem_cons.mp ha with rfl | ha
      · rw [hn] at hab
        exact List.mem_cons_of_mem _ (List.mem_of_mem_head? hab)
      · exact List.mem_cons_of_mem _ (ih hrest ha)

/-- No node of a list without repetitions is its own successor. -/
theorem next_ne_self (h : Linked prev next before l) (nodup : l.Nodup) (ha : a ∈ l) :
    next a ≠ some a := by
  induction l generalizing before with
  | nil => cases ha
  | cons c rest ih =>
      obtain ⟨-, hn, hrest⟩ := h
      obtain ⟨hc, hnd⟩ := List.nodup_cons.mp nodup
      rcases List.mem_cons.mp ha with rfl | ha
      · intro hself
        rw [hn] at hself
        exact hc (List.mem_of_mem_head? hself)
      · exact ih hrest hnd ha

/-- The first node determines the list. -/
theorem unique {l' : List α} {after : Option α} (h : Linked prev next before l)
    (h' : Linked prev next after l') (hhead : l.head? = l'.head?) : l = l' := by
  induction l generalizing l' before after with
  | nil => exact (List.head?_eq_none_iff.mp hhead.symm).symm
  | cons a rest ih =>
      cases l' with
      | nil => cases hhead
      | cons b rest' =>
          obtain rfl : a = b := Option.some.inj hhead
          obtain ⟨-, hn, hrest⟩ := h
          obtain ⟨-, hn', hrest'⟩ := h'
          rw [ih hrest hrest' (hn.symm.trans hn')]

end Linked
