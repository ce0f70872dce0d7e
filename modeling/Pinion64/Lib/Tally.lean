import Mathlib.Algebra.Order.BigOperators.Group.Finset
import Mathlib.Data.Fintype.BigOperators

/-! How often a table of finitely many entries holds a value, and what writing one entry changes
of it. -/
namespace Counting

variable {ι α : Type*} [Fintype ι] [DecidableEq α]

def tally (f : ι → α) (a : α) : ℕ := ∑ i, if f i = a then 1 else 0

variable {f : ι → α} {i : ι} {a x : α}

theorem tally_pos_iff : 0 < tally f a ↔ ∃ i, f i = a := by
  rw [tally, Finset.sum_pos_iff]
  simp [apply_ite (0 < ·)]

variable [DecidableEq ι]

/-- The entry that is overwritten counts no more, the new one does. -/
theorem tally_update (f : ι → α) (i : ι) (x a : α) :
    tally (Function.update f i x) a + (if f i = a then 1 else 0) =
      tally f a + if x = a then 1 else 0 := by
  have hrest : ∀ j ∈ ({i}ᶜ : Finset ι), (if Function.update f i x j = a then 1 else 0) =
      if f j = a then 1 else 0 := by
    intro j hj
    rw [Function.update_of_ne (by simpa using hj)]
  rw [tally, tally, Fintype.sum_eq_add_sum_compl i, Fintype.sum_eq_add_sum_compl i,
    Function.update_self, Finset.sum_congr rfl hrest]
  omega

/-- A write that neither removes nor enters the value. -/
theorem tally_update_of_ne (hf : f i ≠ a) (hx : x ≠ a) :
    tally (Function.update f i x) a = tally f a := by
  have h := tally_update f i x a
  rwa [if_neg hf, if_neg hx] at h

section Weight
variable {κ β : Type*}

/-- What a part of a table weighs, entry by entry. -/
def weight (w : β → ℕ) (s : Finset κ) (f : κ → β) : ℕ := ∑ i ∈ s, w (f i)

theorem weight_congr {w : β → ℕ} {s : Finset κ} {f g : κ → β} (h : ∀ i ∈ s, w (f i) = w (g i)) :
    weight w s f = weight w s g := Finset.sum_congr rfl h

/-- Where each entry weighs one at most, the part weighs no more than its size. -/
theorem weight_le {w : β → ℕ} (hw : ∀ x, w x ≤ 1) (s : Finset κ) (f : κ → β) :
    weight w s f ≤ s.card := by
  rw [weight, Finset.card_eq_sum_ones]
  exact Finset.sum_le_sum fun i _ => hw (f i)

/-- Entries that weigh nothing can be left out. -/
theorem weight_subset {w : β → ℕ} {s t : Finset κ} {f : κ → β} (h : s ⊆ t)
    (h0 : ∀ i ∈ t, i ∉ s → w (f i) = 0) : weight w t f = weight w s f := (Finset.sum_subset h h0).symm

variable [DecidableEq κ]

theorem weight_update (w : β → ℕ) {s : Finset κ} (f : κ → β) {i : κ} (hi : i ∈ s) (x : β) :
    weight w s (Function.update f i x) + w (f i) = weight w s f + w x := by
  have hrest : ∀ j ∈ s.erase i, w (Function.update f i x j) = w (f j) := by
    intro j hj
    rw [Function.update_of_ne (Finset.ne_of_mem_erase hj)]
  rw [weight, weight, ← Finset.add_sum_erase s _ hi, ← Finset.add_sum_erase s (fun j => w (f j)) hi,
    Function.update_self, Finset.sum_congr rfl hrest]
  omega

end Weight

end Counting
