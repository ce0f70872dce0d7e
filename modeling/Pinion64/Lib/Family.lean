import Pinion64.Lib.Chain

/-! Several intrusive lists threaded through one successor function: they share no node, and a
push or a pop on one of them leaves the others as they are. -/
namespace Intrusive

variable {α ι : Type*}

/-- The list `nodes i` hangs at `head i`; no node is on two lists. -/
structure Family (next : α → α) (null : α) (head : ι → α) (nodes : ι → List α) : Prop where
  chain : ∀ i, Chain next null (head i) (nodes i)
  disjoint : ∀ i j, i ≠ j → (nodes i).Disjoint (nodes j)

namespace Family

variable {next : α → α} {null : α} {head : ι → α} {nodes : ι → List α}

theorem empty : Family next null (fun _ : ι => null) fun _ => [] :=
  ⟨fun _ => Chain.nil_iff.mpr rfl, fun _ _ _ => List.disjoint_nil_left _⟩

/-- A write to what is no node of any list. -/
theorem write [DecidableEq α] (h : Family next null head nodes) {x : α} (hx : ∀ i, x ∉ nodes i) (y : α) :
    Family (Function.update next x y) null head nodes where
  chain i := (h.chain i).congr fun _ hz =>
    Function.update_of_ne (ne_of_mem_of_not_mem hz (hx i)) _ _
  disjoint := h.disjoint

variable [DecidableEq ι]

/-- The first node of the list `i` leaves it. -/
theorem pop (h : Family next null head nodes) {i : ι} {x : α} {l : List α} (hl : nodes i = x :: l) :
    Family next null (Function.update head i (next x)) (Function.update nodes i l) := by
  have hx : Chain next null (next x) l := by
    have hc := h.chain i
    rw [hl] at hc
    exact (Chain.cons_iff.mp hc).2.2
  have hsub : ∀ j, (Function.update nodes i l j) ⊆ nodes j := by
    intro j
    by_cases hj : j = i
    · rw [hj, Function.update_self, hl]
      exact List.subset_cons_self ..
    · rw [Function.update_of_ne hj]
      exact List.Subset.refl _
  refine ⟨fun j => ?_, fun j k hjk y hy hz => h.disjoint j k hjk (hsub j hy) (hsub k hz)⟩
  by_cases hj : j = i
  · rw [hj, Function.update_self, Function.update_self]
    exact hx
  · rw [Function.update_of_ne hj, Function.update_of_ne hj]
    exact h.chain j

/-- What a popped node was: on its own list only, and on that list once. -/
theorem pop_not_mem (h : Family next null head nodes) {i : ι} {x : α} {l : List α}
    (hl : nodes i = x :: l) (j : ι) : x ∉ Function.update nodes i l j := by
  by_cases hj : j = i
  · rw [hj, Function.update_self]
    have hc := (h.chain i).nodup
    rw [hl] at hc
    exact (List.nodup_cons.mp hc).1
  · rw [Function.update_of_ne hj]
    exact h.disjoint i j (Ne.symm hj) (hl ▸ List.mem_cons_self ..)

variable [DecidableEq α]

/-- A new node in front of the list `i`. -/
theorem push (h : Family next null head nodes) {x : α} (hne : x ≠ null) (hx : ∀ i, x ∉ nodes i)
    (i : ι) : Family (Function.update next x (head i)) null (Function.update head i x)
      (Function.update nodes i (x :: nodes i)) where
  chain j := by
    by_cases hj : j = i
    · rw [hj, Function.update_self, Function.update_self]
      exact (h.chain i).cons_update hne (hx i)
    · rw [Function.update_of_ne hj, Function.update_of_ne hj]
      exact (h.write hx _).chain j
  disjoint j k hjk := by
    by_cases hj : j = i
    · subst hj
      rw [Function.update_self, Function.update_of_ne (Ne.symm hjk), List.disjoint_cons_left]
      exact ⟨hx k, h.disjoint j k hjk⟩
    · by_cases hk : k = i
      · subst hk
        rw [Function.update_self, Function.update_of_ne hj, List.disjoint_cons_right]
        exact ⟨hx j, h.disjoint j k hjk⟩
      · rw [Function.update_of_ne hj, Function.update_of_ne hk]
        exact h.disjoint j k hjk

end Family
end Intrusive
