import Pinion64.PageApi

/-! The pinion window under the paging API: no sequence of page_set calls changes how the kernel
sees its own memory. -/
namespace Pinion64
open Radix

variable {S : PageSource}

/-- The addresses from which physical memory is mapped for the kernel. -/
def InPinion (a : Ptr) : Prop := base ≤ a

theorem inWindow_of_inPinion {a : Ptr} (h : InPinion a) : InWindow a := by
  have hb : base.toNat ≤ a.toNat := h
  have ha := a.isLt
  simp only [base, BitVec.reduceToNat] at hb
  constructor <;>
  · apply BitVec.eq_of_toNat_eq
    rw [tableIndex, BitVec.extractLsb'_toNat, Nat.shiftRight_eq_div_pow]
    simp only [BitVec.reduceToNat]
    omega

/-- Every address of the window is mapped by a large entry of the table that pcx_init filled. -/
theorem TreeInv.lookup_window {p : Paging} {own : Ptr → Option (List (BitVec 9))} {a : Ptr}
    (h : TreeInv S p own) (ha : InWindow a) : p.lookup a = some (1, pinionPt2 (tableIndex a 1)) := by
  obtain ⟨q, hq, hm⟩ := h.window
  have hpath : pathFrom a 4 = [511, 511].reverse ++ pathFrom a 2 := by
    simp only [pathFrom, ha.1, ha.2]
    rfl
  rw [Paging.lookup, hpath, h.forest.find_label hq rfl]
  simp only [pathFrom, find, hm, pinionPt2_view]
  rfl

/-- The frame that an entry of the window names: the first half gigabyte of physical memory, then
the device memory that ends at four gigabytes. -/
theorem frameOf_pinionPt2 (i : BitVec 9) :
    (frameOf (pinionPt2 i)).toNat =
      if i.toNat < 256 then i.toNat * 2 ^ 21 else i.toNat * 2 ^ 21 + 0xC0000000 := by
  revert i
  decide +kernel

theorem offset_toNat (a : Ptr) : (a &&& offsetMask 1).toNat = a.toNat % 2 ^ 21 := by
  rw [BitVec.toNat_and]
  exact Nat.and_two_pow_sub_one_eq_mod a.toNat 21

/-- A pinion address is mapped to the physical address of which it is the pmm_vaddr. -/
theorem transOf_window {x : Word} (hx : pmmVaddr x ≠ 0) :
    InPinion (pmmVaddr x) ∧
      transOf (pmmVaddr x) (some (1, pinionPt2 (tableIndex (pmmVaddr x) 1))) = x := by
  have hcase : (pmmVaddr x).toNat = base.toNat + x.toNat ∧ x.toNat < 0x20000000 ∨
      (pmmVaddr x).toNat = base.toNat + x.toNat - 0xC0000000 ∧ 0xE0000000 < x.toNat ∧
        x.toNat < 0x100000000 := by
    unfold pmmVaddr at hx ⊢
    simp only [BitVec.lt_def, BitVec.reduceToNat] at hx ⊢
    split_ifs at hx ⊢ with h1 h2
    · left
      rw [BitVec.toNat_add]
      simp only [base, BitVec.reduceToNat]
      omega
    · right
      have hs : (x - 0xE0000000).toNat = x.toNat - 0xE0000000 :=
        BitVec.toNat_sub_of_le (BitVec.le_def.mpr h2.1.le)
      rw [BitVec.toNat_add, BitVec.toNat_add, hs]
      simp only [base, BitVec.reduceToNat]
      omega
    · exact absurd rfl hx
  have hi : (tableIndex (pmmVaddr x) 1).toNat = (pmmVaddr x).toNat / 2 ^ 21 % 2 ^ 9 := by
    rw [tableIndex, BitVec.extractLsb'_toNat, Nat.shiftRight_eq_div_pow]
  have hf := frameOf_pinionPt2 (tableIndex (pmmVaddr x) 1)
  simp only [base, BitVec.reduceToNat] at hcase
  constructor
  · change base.toNat ≤ (pmmVaddr x).toNat
    simp only [base, BitVec.reduceToNat]
    omega
  · apply BitVec.eq_of_toNat_eq
    rw [transOf, BitVec.toNat_add, hf, offset_toNat, hi]
    rcases hcase with ⟨hv, hlt⟩ | ⟨hv, hlo, hhi⟩
    · rw [if_pos (by omega)]
      omega
    · rw [if_neg (by omega)]
      omega

/-- The arguments of a page_set. -/
structure PageSetCall where
  vbase : Word
  pbase : Word
  flags : Word
  size : Word

/-- The calls are made one after the other, accepted or not. -/
def pageSetCalls (S : PageSource) : List PageSetCall → Paging → Paging
  | [], p => p
  | c :: cs, p => pageSetCalls S cs (apilogicPageSet S p c.vbase c.pbase c.flags c.size).2

theorem pageSetFrom_inv {vbase pbase flags : Word} {n : ℕ} {i : Word} {p : Paging}
    {own : Ptr → Option (List (BitVec 9))} (h : TreeInv S p own)
    (hd : S.Delivers (pageSetFrom S vbase pbase flags n i p).2.pmmTaken) :
    ∃ own', TreeInv S (pageSetFrom S vbase pbase flags n i p).2 own' := by
  induction n generalizing i p own with
  | zero => exact ⟨own, h⟩
  | succ n ih =>
    simp only [pageSetFrom] at hd ⊢
    split_ifs at hd ⊢
    · exact pcxSetFrame_inv h hd
    · obtain ⟨own', h'⟩ := pcxSetFrame_inv h (TreeInv.Delivers.mono hd (pageSetFrom_taken ..))
      exact ih h' hd

theorem pageSetCalls_taken (cs : List PageSetCall) (p : Paging) :
    p.pmmTaken ≤ (pageSetCalls S cs p).pmmTaken := by
  induction cs generalizing p with
  | nil => exact le_rfl
  | cons c cs ih => exact (apilogicPageSet_taken ..).trans (ih _)

theorem pageSetCalls_inv {cs : List PageSetCall} {p : Paging}
    {own : Ptr → Option (List (BitVec 9))} (h : TreeInv S p own)
    (hd : S.Delivers (pageSetCalls S cs p).pmmTaken) :
    ∃ own', TreeInv S (pageSetCalls S cs p) own' := by
  induction cs generalizing p own with
  | nil => exact ⟨own, h⟩
  | cons c cs ih =>
    have hd' := TreeInv.Delivers.mono hd (pageSetCalls_taken cs _)
    have hstep : ∃ own', TreeInv S (apilogicPageSet S p c.vbase c.pbase c.flags c.size).2 own' := by
      unfold apilogicPageSet at hd' ⊢
      split_ifs at hd' ⊢
      · exact ⟨own, h⟩
      · exact pageSetFrom_inv h hd'
    obtain ⟨own', h'⟩ := hstep
    exact ih h' hd

/-- Whatever is asked of page_set, the kernel's window keeps mapping physical memory as
pmm_vaddr says, with the translations and flags that pcx_init gave it. -/
theorem pinion_window_kept {p0 : Paging} (h0 : S.Delivers (p0.pmmTaken + 258))
    (cs : List PageSetCall)
    (hd : S.Delivers (pageSetCalls S cs (pcxInit S p0)).pmmTaken) :
    (∀ x, pmmVaddr x ≠ 0 →
      pcxGetTrans (pageSetCalls S cs (pcxInit S p0)) 0 (pmmVaddr x) = x) ∧
    ∀ a, InPinion a →
      pcxGetTrans (pageSetCalls S cs (pcxInit S p0)) 0 a = pcxGetTrans (pcxInit S p0) 0 a ∧
      pcxGetFlags (pageSetCalls S cs (pcxInit S p0)) 0 a = pcxGetFlags (pcxInit S p0) 0 a := by
  obtain ⟨own0, hinv0⟩ := pcxInit_inv p0 h0
  obtain ⟨own, hinv⟩ := pageSetCalls_inv hinv0 hd
  constructor
  · intro x hx
    obtain ⟨hin, htrans⟩ := transOf_window hx
    rw [pcxGetTrans_eq, hinv.lookup_window (inWindow_of_inPinion hin), htrans]
  · intro a ha
    have hw := inWindow_of_inPinion ha
    rw [pcxGetTrans_eq, pcxGetTrans_eq, pcxGetFlags_eq, pcxGetFlags_eq, hinv.lookup_window hw,
      hinv0.lookup_window hw]
    exact ⟨rfl, rfl⟩

theorem pinion_window_kept_one_call :
    (∀ x, pmmVaddr x ≠ 0 → pcxGetTrans (pageSetCalls lowMemory
      [⟨0x400000, 0, 0xFFF, 0x1000⟩] (pcxInit lowMemory bootPaging)) 0 (pmmVaddr x) = x) ∧
    ∀ a, InPinion a →
      pcxGetTrans (pageSetCalls lowMemory [⟨0x400000, 0, 0xFFF, 0x1000⟩]
        (pcxInit lowMemory bootPaging)) 0 a = pcxGetTrans (pcxInit lowMemory bootPaging) 0 a ∧
      pcxGetFlags (pageSetCalls lowMemory [⟨0x400000, 0, 0xFFF, 0x1000⟩]
        (pcxInit lowMemory bootPaging)) 0 a = pcxGetFlags (pcxInit lowMemory bootPaging) 0 a :=
  have hr : PageRange 0x400000 0 0x1000 :=
    ⟨by decide, by decide, by decide, by decide, Or.inl (by decide)⟩
  pinion_window_kept (lowMemory_delivers (by decide)) _ (by
    simp only [pageSetCalls]
    exact (boot_accepts hr (by decide)).1)

section DirectMap

/-- The physical address that a window address is mapped to: memory from 0 on in the lower half of
the window, the last half gigabyte below four gigabytes in the upper one. -/
theorem transOf_toNat {v : Ptr} (hv : InPinion v) :
    (transOf v (some (1, pinionPt2 (tableIndex v 1)))).toNat =
      if v.toNat < 0xFFFFFFFFE0000000 then v.toNat - 0xFFFFFFFFC0000000
      else v.toNat - 0xFFFFFFFFC0000000 + 0xC0000000 := by
  have hb : base.toNat ≤ v.toNat := hv
  have hlt := v.isLt
  have hi : (tableIndex v 1).toNat = v.toNat / 2 ^ 21 % 2 ^ 9 := by
    rw [tableIndex, BitVec.extractLsb'_toNat, Nat.shiftRight_eq_div_pow]
  have hf := frameOf_pinionPt2 (tableIndex v 1)
  simp only [base, BitVec.reduceToNat] at hb
  rw [transOf, BitVec.toNat_add, hf, offset_toNat, hi]
  by_cases hlow : v.toNat < 0xFFFFFFFFE0000000
  · rw [if_pos hlow, if_pos (by omega)]
    omega
  · rw [if_neg hlow, if_neg (by omega)]
    omega

/-- pmm_vaddr takes a physical address of the window back, except for the first byte of the
upper half. -/
theorem pmmVaddr_transOf {v : Ptr} (hv : InPinion v) :
    pmmVaddr (transOf v (some (1, pinionPt2 (tableIndex v 1)))) = v ↔ v ≠ 0xFFFFFFFFE0000000 := by
  have hx := transOf_toNat hv
  have hb : base.toNat ≤ v.toNat := hv
  have hlt := v.isLt
  generalize transOf v (some (1, pinionPt2 (tableIndex v 1))) = x at hx
  rw [← BitVec.toNat_ne_iff_ne, ← BitVec.toNat_inj]
  unfold pmmVaddr
  simp only [BitVec.lt_def, base, BitVec.reduceToNat] at hb ⊢
  by_cases hlow : v.toNat < 0xFFFFFFFFE0000000
  · rw [if_pos hlow] at hx
    rw [if_pos (by omega), BitVec.toNat_add]
    simp only [BitVec.reduceToNat]
    omega
  · rw [if_neg hlow] at hx
    rw [if_neg (by omega)]
    by_cases hfirst : v.toNat = 0xFFFFFFFFE0000000
    · -- the range test of pmm_vaddr leaves the first byte out
      rw [if_neg (by omega)]
      simp only [BitVec.reduceToNat]
      omega
    · have hs : (x - 0xE0000000).toNat = x.toNat - 0xE0000000 := by
        apply BitVec.toNat_sub_of_le
        rw [BitVec.le_def]
        simp only [BitVec.reduceToNat]
        omega
      rw [if_pos (by omega), BitVec.toNat_add, BitVec.toNat_add, hs]
      simp only [BitVec.reduceToNat]
      omega

/-- Of the addresses of the window, pmm_vaddr gives back all but the first one of its upper half,
whatever is asked of page_set. -/
theorem direct_map_inverse {p0 : Paging} (h0 : S.Delivers (p0.pmmTaken + 258))
    (cs : List PageSetCall) (hd : S.Delivers (pageSetCalls S cs (pcxInit S p0)).pmmTaken)
    (v : Ptr) (hv : InPinion v) :
    pmmVaddr (pcxGetTrans (pageSetCalls S cs (pcxInit S p0)) 0 v) = v ↔
      v ≠ 0xFFFFFFFFE0000000 := by
  obtain ⟨own0, hinv0⟩ := pcxInit_inv p0 h0
  obtain ⟨own, hinv⟩ := pageSetCalls_inv hinv0 hd
  rw [pcxGetTrans_eq, hinv.lookup_window (inWindow_of_inPinion hv)]
  exact pmmVaddr_transOf hv

/-- The last address of the window comes back. -/
theorem direct_map_inverse_last :
    pmmVaddr (pcxGetTrans (pageSetCalls lowMemory [] (pcxInit lowMemory bootPaging)) 0
      0xFFFFFFFFFFFFFFFF) = 0xFFFFFFFFFFFFFFFF :=
  have ht : (pageSetCalls lowMemory [] (pcxInit lowMemory bootPaging)).pmmTaken = 258 :=
    pcxInit_taken bootPaging
  (direct_map_inverse (lowMemory_delivers (by decide)) []
    (lowMemory_delivers (by rw [ht]; decide)) 0xFFFFFFFFFFFFFFFF (by unfold InPinion; decide)).mpr
      (by decide)

/-- The address at which the device memory is mapped does not come back: pmm_vaddr answers NULL. -/
theorem direct_map_gap : ¬ ∀ (S : PageSource) (p0 : Paging), S.Delivers (p0.pmmTaken + 258) →
    ∀ v, InPinion v → pmmVaddr (pcxGetTrans (pcxInit S p0) 0 v) = v := by
  intro h
  obtain ⟨own, hinv⟩ := pcxInit_inv bootPaging (lowMemory_delivers (n := 258) (by decide))
  have hv : InPinion 0xFFFFFFFFE0000000 := by
    unfold InPinion
    decide
  have hv' := h lowMemory bootPaging (lowMemory_delivers (by decide)) 0xFFFFFFFFE0000000 hv
  rw [pcxGetTrans_eq, hinv.lookup_window (inWindow_of_inPinion hv)] at hv'
  exact (pmmVaddr_transOf hv).mp hv' rfl

end DirectMap
end Pinion64
