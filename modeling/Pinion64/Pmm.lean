import Mathlib.Data.Nat.Basic
import Mathlib.Tactic.Ring

/-! The page allocator of pmm.c. The rest of the kernel sees it through the sequence of its
answers; a bump range inside the pinion window answers with pairwise distinct pages. -/
namespace Pinion64

abbrev Word := BitVec 64
abbrev Ptr := BitVec 64

instance : LawfulBEq Ptr := inferInstance

/-- An access to any other address faults. -/
def Canonical (x : Ptr) : Prop := (x.setWidth 48).signExtend 64 = x

instance (x : Ptr) : Decidable (Canonical x) := inferInstanceAs (Decidable (_ = _))

/-- `base` of page.c: where physical address zero is mapped. -/
def base : Ptr := 0xFFFFFFFFC0000000

structure Pmm where
  pmmBase : Word
  pmmAllocBase : Word
  pmmAllocLimit : Word
  deriving DecidableEq

def pmmAlloc (p : Pmm) : Ptr × Pmm :=
  if p.pmmAllocBase = p.pmmAllocLimit then (0, p)
  else (p.pmmAllocBase + p.pmmBase, { p with pmmAllocBase := p.pmmAllocBase + 0x1000 })

namespace Pmm

/-- The bump range is page-aligned, not inverted and below one gigabyte. -/
structure Sound (p : Pmm) : Prop where
  base : p.pmmBase = base
  alignedBase : p.pmmAllocBase.toNat % 4096 = 0
  alignedLimit : p.pmmAllocLimit.toNat % 4096 = 0
  ordered : p.pmmAllocBase.toNat ≤ p.pmmAllocLimit.toNat
  bounded : p.pmmAllocLimit.toNat ≤ 2 ^ 30

/-- While the range lasts, the answer is its first page. -/
theorem alloc_of_ne {p : Pmm} (h : p.Sound) (hne : p.pmmAllocBase ≠ p.pmmAllocLimit) :
    (pmmAlloc p).1.toNat = Pinion64.base.toNat + p.pmmAllocBase.toNat ∧
      (pmmAlloc p).2.pmmAllocBase.toNat = p.pmmAllocBase.toNat + 4096 := by
  have hb := h.bounded
  have hlt : p.pmmAllocBase.toNat < p.pmmAllocLimit.toNat :=
    lt_of_le_of_ne h.ordered fun he => hne (BitVec.eq_of_toNat_eq he)
  rw [pmmAlloc, if_neg hne]
  constructor
  · rw [h.base, BitVec.toNat_add]
    simp only [Pinion64.base, BitVec.reduceToNat]
    omega
  · rw [BitVec.toNat_add]
    simp only [BitVec.reduceToNat]
    omega

theorem alloc_null_iff {p : Pmm} (h : p.Sound) :
    (pmmAlloc p).1 = 0 ↔ p.pmmAllocBase = p.pmmAllocLimit := by
  constructor
  · intro hz
    by_contra hne
    have ha := (alloc_of_ne h hne).1
    rw [hz] at ha
    simp only [Pinion64.base, BitVec.reduceToNat] at ha
    omega
  · intro he
    rw [pmmAlloc, if_pos he]

theorem alloc_of_eq {p : Pmm} (he : p.pmmAllocBase = p.pmmAllocLimit) : pmmAlloc p = (0, p) :=
  if_pos he

/-- The answer to the `k`-th call from here. -/
def page : Pmm → ℕ → Ptr
  | p, 0 => (pmmAlloc p).1
  | p, k+1 => (pmmAlloc p).2.page k

theorem Sound.alloc {p : Pmm} (h : p.Sound) : (pmmAlloc p).2.Sound := by
  unfold pmmAlloc
  split
  · exact h
  · rename_i hne
    have hlt : p.pmmAllocBase.toNat < p.pmmAllocLimit.toNat :=
      lt_of_le_of_ne h.ordered fun he => hne (BitVec.eq_of_toNat_eq he)
    have hb := h.bounded
    have hs : (p.pmmAllocBase + 0x1000).toNat = p.pmmAllocBase.toNat + 4096 := by
      rw [BitVec.toNat_add]
      simp only [BitVec.reduceToNat]
      omega
    have h1 := h.alignedBase
    have h2 := h.alignedLimit
    exact ⟨h.base, by simp only [hs]; omega, h2, by simp only [hs]; omega, hb⟩

/-- The pages of a sound range lie one after the other, then the range is exhausted. -/
theorem page_toNat {p : Pmm} (h : p.Sound) (k : ℕ) :
    (p.page k).toNat =
      if p.pmmAllocBase.toNat + 4096 * k < p.pmmAllocLimit.toNat then
        Pinion64.base.toNat + p.pmmAllocBase.toNat + 4096 * k
      else 0 := by
  have hb := h.bounded
  induction k generalizing p with
  | zero =>
    simp only [page, pmmAlloc, Nat.mul_zero, Nat.add_zero]
    split
    · rename_i he
      simp [he]
    · rename_i hne
      have hlt : p.pmmAllocBase.toNat < p.pmmAllocLimit.toNat :=
        lt_of_le_of_ne h.ordered fun he => hne (BitVec.eq_of_toNat_eq he)
      rw [if_pos hlt, h.base, BitVec.toNat_add]
      simp only [Pinion64.base, BitVec.reduceToNat]
      omega
  | succ k ih =>
    rw [page, ih h.alloc (by unfold pmmAlloc; split <;> exact hb)]
    unfold pmmAlloc
    split
    · rename_i he
      have h1 := congrArg BitVec.toNat he
      rw [if_neg (by simp only; omega), if_neg (by omega)]
    · rename_i hne
      have hlt : p.pmmAllocBase.toNat < p.pmmAllocLimit.toNat :=
        lt_of_le_of_ne h.ordered fun he => hne (BitVec.eq_of_toNat_eq he)
      have hs : (p.pmmAllocBase + 0x1000).toNat = p.pmmAllocBase.toNat + 4096 := by
        rw [BitVec.toNat_add]
        simp only [BitVec.reduceToNat]
        omega
      simp only [hs]
      have ha : p.pmmAllocBase.toNat + 4096 + 4096 * k =
          p.pmmAllocBase.toNat + 4096 * (k + 1) := by ring
      have hc : Pinion64.base.toNat + (p.pmmAllocBase.toNat + 4096) + 4096 * k =
          Pinion64.base.toNat + p.pmmAllocBase.toNat + 4096 * (k + 1) := by ring
      rw [ha, hc]

/-- The allocator after `n` calls. -/
def after (p : Pmm) : ℕ → Pmm
  | 0 => p
  | n+1 => (pmmAlloc (p.after n)).2

theorem page_eq_after (p : Pmm) (n : ℕ) : p.page n = (pmmAlloc (p.after n)).1 := by
  have h : ∀ m, (p.after m).page n = (pmmAlloc (p.after (m+n))).1 := by
    induction n with
    | zero => exact fun _ => rfl
    | succ n ih =>
      intro m
      have := ih (m+1)
      rwa [show m + 1 + n = m + (n+1) by omega] at this
  have h0 := h 0
  rwa [Nat.zero_add] at h0

theorem alloc_fixed (p : Pmm) : (pmmAlloc p).2.pmmBase = p.pmmBase ∧
    (pmmAlloc p).2.pmmAllocLimit = p.pmmAllocLimit := by
  unfold pmmAlloc
  split_ifs <;> exact ⟨rfl, rfl⟩

theorem after_fixed (p : Pmm) (n : ℕ) : (p.after n).pmmBase = p.pmmBase ∧
    (p.after n).pmmAllocLimit = p.pmmAllocLimit := by
  induction n with
  | zero => exact ⟨rfl, rfl⟩
  | succ n ih => exact ⟨(alloc_fixed _).1.trans ih.1, (alloc_fixed _).2.trans ih.2⟩

/-- The walk through a range that is not inverted stops at its end. -/
theorem after_toNat {p : Pmm} (ha : p.pmmAllocBase.toNat % 4096 = 0)
    (hl : p.pmmAllocLimit.toNat % 4096 = 0)
    (hle : p.pmmAllocBase.toNat ≤ p.pmmAllocLimit.toNat) (n : ℕ) :
    (p.after n).pmmAllocBase.toNat =
      min (p.pmmAllocBase.toNat + 4096 * n) p.pmmAllocLimit.toNat := by
  induction n with
  | zero =>
    change p.pmmAllocBase.toNat = _
    omega
  | succ n ih =>
    have hlim := (p.after_fixed n).2
    change (pmmAlloc (p.after n)).2.pmmAllocBase.toNat = _
    unfold pmmAlloc
    split_ifs with he
    · have he := congrArg BitVec.toNat he
      rw [ih, hlim] at he
      simp only [ih]
      omega
    · have hne : (p.after n).pmmAllocBase.toNat ≠ p.pmmAllocLimit.toNat := by
        rw [← hlim]
        exact fun h => he (BitVec.eq_of_toNat_eq h)
      have hlt := p.pmmAllocLimit.isLt
      rw [ih] at hne
      rw [BitVec.toNat_add, ih]
      simp only [BitVec.reduceToNat]
      omega

/-- The walk advances by pages and stops after the distance to the limit, also around the end of
the address space. -/
theorem after_eq {p : Pmm} (h : (p.pmmAllocLimit - p.pmmAllocBase).toNat % 4096 = 0) (n : ℕ) :
    (p.after n).pmmAllocBase = p.pmmAllocBase +
      BitVec.ofNat 64 (min (4096 * n) (p.pmmAllocLimit - p.pmmAllocBase).toNat) := by
  induction n with
  | zero => simp [after]
  | succ n ih =>
    have hlim := (p.after_fixed n).2
    have hd := (p.pmmAllocLimit - p.pmmAllocBase).isLt
    have hend : p.pmmAllocBase + (p.pmmAllocLimit - p.pmmAllocBase) = p.pmmAllocLimit := by
      rw [BitVec.add_comm, BitVec.sub_add_cancel]
    change (pmmAlloc (p.after n)).2.pmmAllocBase = _
    unfold pmmAlloc
    rcases Nat.lt_or_ge (4096 * n) (p.pmmAllocLimit - p.pmmAllocBase).toNat with hlt | hge
    · have hne : (p.after n).pmmAllocBase ≠ (p.after n).pmmAllocLimit := by
        rw [ih, hlim, min_eq_left hlt.le, ← hend]
        intro he
        have ht := congrArg BitVec.toNat (BitVec.add_right_inj _ |>.mp he)
        rw [BitVec.toNat_ofNat, Nat.mod_eq_of_lt (by omega)] at ht
        omega
      rw [if_neg hne]
      dsimp only
      rw [ih, min_eq_left hlt.le, min_eq_left (by omega), BitVec.add_assoc, Nat.mul_succ,
        BitVec.ofNat_add]
      rfl
    · have he : (p.after n).pmmAllocBase = (p.after n).pmmAllocLimit := by
        rw [ih, hlim, min_eq_right hge, BitVec.ofNat_toNat, BitVec.setWidth_eq, hend]
      rw [if_pos he, ih, min_eq_right hge, min_eq_right (by omega)]

/-- The address lies in a page that some call returns. -/
def Walks (p : Pmm) (x : Word) : Prop :=
  ∃ n, (p.after n).pmmAllocBase ≠ p.pmmAllocLimit ∧ (x - (p.after n).pmmAllocBase).toNat < 4096

theorem walks_iff {p : Pmm} (h : (p.pmmAllocLimit - p.pmmAllocBase).toNat % 4096 = 0) (x : Word) :
    p.Walks x ↔ (x - p.pmmAllocBase).toNat < (p.pmmAllocLimit - p.pmmAllocBase).toNat := by
  have hd := (p.pmmAllocLimit - p.pmmAllocBase).isLt
  have hend : p.pmmAllocBase + (p.pmmAllocLimit - p.pmmAllocBase) = p.pmmAllocLimit := by
    rw [BitVec.add_comm, BitVec.sub_add_cancel]
  have hsub : ∀ m, x - (p.pmmAllocBase + BitVec.ofNat 64 m) =
      x - p.pmmAllocBase - BitVec.ofNat 64 m := fun m => by grind
  constructor
  · rintro ⟨n, hne, hx⟩
    rw [after_eq h] at hne hx
    rcases Nat.lt_or_ge (4096 * n) (p.pmmAllocLimit - p.pmmAllocBase).toNat with hlt | hge
    · rw [min_eq_left hlt.le, hsub, BitVec.toNat_sub, BitVec.toNat_ofNat] at hx
      omega
    · rw [min_eq_right hge, BitVec.ofNat_toNat, BitVec.setWidth_eq, hend] at hne
      exact absurd rfl hne
  · intro hx
    have hlt : 4096 * ((x - p.pmmAllocBase).toNat / 4096) <
        (p.pmmAllocLimit - p.pmmAllocBase).toNat := by omega
    refine ⟨(x - p.pmmAllocBase).toNat / 4096, ?_, ?_⟩
    · rw [after_eq h, min_eq_left hlt.le]
      intro he
      rw [← hend] at he
      have ht := congrArg BitVec.toNat (BitVec.add_right_inj _ |>.mp he)
      rw [BitVec.toNat_ofNat, Nat.mod_eq_of_lt (by omega)] at ht
      omega
    · rw [after_eq h, min_eq_left hlt.le, hsub, BitVec.toNat_sub, BitVec.toNat_ofNat]
      omega

end Pmm

/-- What the callers of `pmm_alloc` rely on: the `k`-th answer is NULL or an aligned page of
the pinion window, and no page is handed out twice. -/
structure PageSource where
  page : ℕ → Ptr
  aligned : ∀ k, (page k).toNat % 4096 = 0
  window : ∀ k, page k ≠ 0 → base.toNat ≤ (page k).toNat
  fresh : ∀ j k, page j = page k → page j ≠ 0 → j = k

/-- The bump allocator over a sound range. -/
def Pmm.source (p : Pmm) (h : p.Sound) : PageSource where
  page := p.page
  aligned k := by
    have ha := h.alignedBase
    rw [page_toNat h]
    simp only [Pinion64.base, BitVec.reduceToNat]
    split <;> omega
  window k hk := by
    have hn : (p.page k).toNat ≠ 0 := fun he => hk (BitVec.eq_of_toNat_eq he)
    rw [page_toNat h] at hn ⊢
    split
    · omega
    · rename_i hlt
      simp [hlt] at hn
  fresh j k he hj := by
    have hn : (p.page j).toNat ≠ 0 := fun he => hj (BitVec.eq_of_toNat_eq he)
    have ht := congrArg BitVec.toNat he
    rw [page_toNat h] at hn ht
    rw [page_toNat h] at ht
    split at ht <;> split at ht <;> simp_all

end Pinion64
