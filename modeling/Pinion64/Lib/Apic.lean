import Mathlib.Data.Finset.Basic
import Mathlib.Data.Finset.Filter

/-! The priorities of a local APIC: an interrupt gets through if its class is above that of all
interrupts in service, and an EOI ends the highest of these. -/
namespace Apic

/-- The sixteen vectors of a class have the same priority. -/
def priority (v : ℕ) : ℕ := v / 16

/-- With the task priority at 0. -/
def Dispatches (inService : Finset ℕ) (v : ℕ) : Prop := ∀ w ∈ inService, priority w < priority v

instance (s : Finset ℕ) (v : ℕ) : Decidable (Dispatches s v) := inferInstanceAs (Decidable (∀ w ∈ s, _))

/-- All but the greatest vector stay in service. -/
def eoi (inService : Finset ℕ) : Finset ℕ := inService.filter fun w => ∃ v ∈ inService, w < v

variable {s : Finset ℕ} {v w : ℕ}

theorem lt_of_priority (h : priority w < priority v) : w < v := by
  unfold priority at h
  omega

/-- The interrupt that got through last is the one that an EOI ends. -/
theorem eoi_insert (h : Dispatches s v) : eoi (insert v s) = s := by
  ext w
  rw [eoi, Finset.mem_filter, Finset.mem_insert]
  constructor
  · rintro ⟨rfl | hw, x, hx, hlt⟩
    · rcases Finset.mem_insert.mp hx with rfl | hx
      · exact absurd hlt (lt_irrefl _)
      · exact absurd hlt (lt_of_priority (h x hx)).not_gt
    · exact hw
  · exact fun hw => ⟨Or.inr hw, v, Finset.mem_insert_self .., lt_of_priority (h w hw)⟩

end Apic
