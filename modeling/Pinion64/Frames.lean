import Pinion64.Window
import Pinion64.FreeRam

/-! The frames that page.c computes from pointers: subtracting the base is right only while the
bump range stays in the lower half of the kernel window. -/
namespace Pinion64

/-- The image where the loader puts it. -/
structure LoadedImage extends PinionImage where
  loaded : baseaddr = 0xFFFFFFFFC0200000

/-- If pcx_init gets its pages, then after it every page of pmm_alloc is mapped to the frame that
the subtraction of the base computes. `S` is what pcx_init sees of the allocator. -/
def FramesAgree (p : Pmm) : Prop :=
  ∀ (S : PageSource) (p0 : Paging), p0.pmmTaken = 0 → (∀ k < 258, S.page k = p.page k) →
    (∀ k < 258, p.page k ≠ 0) → ∀ n, p.page n ≠ 0 →
      pcxGetTrans (pcxInit S p0) 0 (p.page n) = p.page n - base

section Range
variable (mmap : UnfoldMmap) (im : LoadedImage)

theorem LoadedImage.pmmBase : (bootPmm mmap im.toPinionImage).pmmBase = base := by
  apply BitVec.eq_of_toNat_eq
  rw [bootPmm_base, im.loaded]
  rfl

/-- The image ends in the kernel window. -/
theorem LoadedImage.end_lt : im.end + 0x1000 ≤ 2 ^ 30 := by
  have h := im.below
  unfold PinionImage.end
  rw [im.loaded]
  simp only [BitVec.reduceToNat]
  omega

/-- How far the bump range goes, around the end of the address space if the image reaches beyond
the cutoff. -/
def bumpLength : ℕ :=
  ((bootPmm mmap im.toPinionImage).pmmAllocLimit - (bootPmm mmap im.toPinionImage).pmmAllocBase).toNat

theorem bumpLength_eq : bumpLength mmap im =
    if im.end ≤ (mapCutoff mmap.total).toNat then (mapCutoff mmap.total).toNat - im.end
    else 2 ^ 64 + (mapCutoff mmap.total).toNat - im.end := by
  have ha := bootPmm_allocBase mmap im.toPinionImage
  have hlim : (bootPmm mmap im.toPinionImage).pmmAllocLimit = mapCutoff mmap.total := rfl
  have hc := (mapCutoff mmap.total).isLt
  have he := im.end_lt
  rw [bumpLength, BitVec.toNat_sub, ha, hlim]
  split_ifs with hle
  · omega
  · omega

theorem bumpLength_mod : bumpLength mmap im % 4096 = 0 := by
  have he := im.end_lt
  have hmod := im.end_mod
  have hc := mapCutoff_toNat mmap.total
  rw [bumpLength_eq]
  split_ifs with hle
  · omega
  · omega

theorem bump_after (n : ℕ) : ((bootPmm mmap im.toPinionImage).after n).pmmAllocBase =
    (bootPmm mmap im.toPinionImage).pmmAllocBase +
      BitVec.ofNat 64 (min (4096 * n) (bumpLength mmap im)) :=
  Pmm.after_eq (bumpLength_mod mmap im) n

/-- The answers lie one after the other, as long as the range goes. -/
theorem page_boot {n : ℕ} (h : 4096 * n < bumpLength mmap im) :
    (bootPmm mmap im.toPinionImage).page n = base + BitVec.ofNat 64 (im.end + 4096 * n) := by
  have ha := bootPmm_allocBase mmap im.toPinionImage
  have hafter := bump_after mmap im n
  have hlim := (Pmm.after_fixed (bootPmm mmap im.toPinionImage) n).2
  have hbase := (Pmm.after_fixed (bootPmm mmap im.toPinionImage) n).1
  have hd := (bootPmm mmap im.toPinionImage).pmmAllocLimit.isLt
  rw [min_eq_left h.le] at hafter
  have hne : ((bootPmm mmap im.toPinionImage).after n).pmmAllocBase ≠
      ((bootPmm mmap im.toPinionImage).after n).pmmAllocLimit := by
    rw [hafter, hlim]
    intro he
    have hD : bumpLength mmap im = (BitVec.ofNat 64 (4096 * n)).toNat := by
      rw [bumpLength, ← he, BitVec.add_comm, BitVec.add_sub_cancel]
    rw [BitVec.toNat_ofNat] at hD
    omega
  have hend : (bootPmm mmap im.toPinionImage).pmmAllocBase = BitVec.ofNat 64 im.end := by
    rw [← ha, BitVec.ofNat_toNat, BitVec.setWidth_eq]
  rw [Pmm.page_eq_after, pmmAlloc, if_neg hne, hbase, im.pmmBase, hafter, hend, BitVec.add_comm,
    BitVec.ofNat_add]

/-- Behind the range there are no answers. -/
theorem lt_of_page {n : ℕ} (h : (bootPmm mmap im.toPinionImage).page n ≠ 0) :
    4096 * n < bumpLength mmap im := by
  obtain ⟨-, hne⟩ := page_sub_base _ h
  by_contra hle
  refine hne ?_
  rw [bump_after, min_eq_right (Nat.not_lt.mp hle), bumpLength, BitVec.ofNat_toNat,
    BitVec.setWidth_eq, BitVec.add_comm, BitVec.sub_add_cancel]

/-- The pages that pcx_init gets lie in the kernel window. -/
theorem first_pages (hroom : ∀ k < 258, (bootPmm mmap im.toPinionImage).page k ≠ 0) {k : ℕ}
    (hk : k < 258) : im.end + 4096 * k < 2 ^ 30 := by
  have he := im.end_lt
  have hmod := im.end_mod
  induction k with
  | zero => omega
  | succ k ih =>
    have hlt := ih (by omega)
    by_contra hge
    have hx : im.end + 4096 * (k + 1) = 2 ^ 30 := by omega
    refine hroom (k + 1) hk ?_
    rw [page_boot mmap im (lt_of_page mmap im (hroom (k + 1) hk)), hx]
    decide

theorem first_page_toNat (hroom : ∀ k < 258, (bootPmm mmap im.toPinionImage).page k ≠ 0) {k : ℕ}
    (hk : k < 258) : ((bootPmm mmap im.toPinionImage).page k).toNat =
      base.toNat + im.end + 4096 * k := by
  have hlt := first_pages mmap im hroom hk
  rw [page_boot mmap im (lt_of_page mmap im (hroom k hk)), BitVec.toNat_add, BitVec.toNat_ofNat]
  simp only [base, BitVec.reduceToNat]
  omega

/-- What pcx_init sees of the allocator. -/
def initSource (hroom : ∀ k < 258, (bootPmm mmap im.toPinionImage).page k ≠ 0) : PageSource where
  page k := if k < 258 then (bootPmm mmap im.toPinionImage).page k else 0
  aligned k := by
    have hmod := im.end_mod
    split_ifs with hk
    · rw [first_page_toNat mmap im hroom hk]
      simp only [base, BitVec.reduceToNat]
      omega
    · rfl
  window k hk := by
    split_ifs at hk ⊢ with hlt
    · rw [first_page_toNat mmap im hroom hlt]
      omega
    · exact absurd rfl hk
  fresh j k he hj := by
    split_ifs at he hj with h1 h2
    · have ht := congrArg BitVec.toNat he
      rw [first_page_toNat mmap im hroom h1, first_page_toNat mmap im hroom h2] at ht
      omega
    · exact absurd he hj
    · exact absurd rfl hj
    · exact absurd rfl hj

end Range

section Window

/-- An address of the upper half of the kernel window is mapped to device memory. -/
theorem transOf_device {x : ℕ} (h1 : 2 ^ 29 ≤ x) (h2 : x < 2 ^ 30) :
    InWindow (base + BitVec.ofNat 64 x) ∧
      transOf (base + BitVec.ofNat 64 x)
        (some (1, pinionPt2 (tableIndex (base + BitVec.ofNat 64 x) 1))) ≠ BitVec.ofNat 64 x := by
  have ha : (base + BitVec.ofNat 64 x).toNat = base.toNat + x := by
    rw [BitVec.toNat_add, BitVec.toNat_ofNat]
    simp only [base, BitVec.reduceToNat]
    omega
  obtain ⟨a, hae⟩ : ∃ a, base + BitVec.ofNat 64 x = a := ⟨_, rfl⟩
  rw [hae] at ha ⊢
  have hi : (tableIndex a 1).toNat = a.toNat / 2 ^ 21 % 2 ^ 9 := by
    rw [tableIndex, BitVec.extractLsb'_toNat, Nat.shiftRight_eq_div_pow]
  have hf := frameOf_pinionPt2 (tableIndex a 1)
  simp only [base, BitVec.reduceToNat] at ha
  constructor
  · refine inWindow_of_inPinion (show base.toNat ≤ a.toNat from ?_)
    simp only [base, BitVec.reduceToNat]
    omega
  · intro he
    have ht := congrArg BitVec.toNat he
    rw [transOf, BitVec.toNat_add, hf, offset_toNat, hi, if_neg (by omega), BitVec.toNat_ofNat] at ht
    omega

/-- An address of the lower half is mapped to what is left without the base. -/
theorem transOf_memory {x : ℕ} (h : x < 2 ^ 29) : InWindow (base + BitVec.ofNat 64 x) ∧
    transOf (base + BitVec.ofNat 64 x)
      (some (1, pinionPt2 (tableIndex (base + BitVec.ofNat 64 x) 1))) = BitVec.ofNat 64 x := by
  have hx : (BitVec.ofNat 64 x : Word).toNat = x := by
    rw [BitVec.toNat_ofNat]
    omega
  have hlt : (BitVec.ofNat 64 x : Word) < 0x20000000 := by
    rw [BitVec.lt_def, hx]
    simp only [BitVec.reduceToNat]
    omega
  have hv : pmmVaddr (BitVec.ofNat 64 x) = base + BitVec.ofNat 64 x := by
    rw [pmmVaddr, if_pos hlt, BitVec.add_comm]
  have hne : pmmVaddr (BitVec.ofNat 64 x) ≠ 0 := by
    intro hz
    have ht := congrArg BitVec.toNat (hv.symm.trans hz)
    rw [BitVec.toNat_add, hx] at ht
    simp only [base, BitVec.reduceToNat] at ht
    omega
  obtain ⟨hin, htrans⟩ := transOf_window hne
  rw [hv] at hin htrans
  exact ⟨inWindow_of_inPinion hin, htrans⟩

end Window

section Agree
variable {mmap : UnfoldMmap} {im : LoadedImage}

/-- The frames agree if and only if the image ends at or before the cutoff and the cutoff is at
most half a gigabyte, when pcx_init gets its pages. -/
theorem framesAgree_iff : FramesAgree (bootPmm mmap im.toPinionImage) ↔
    ((∀ k < 258, (bootPmm mmap im.toPinionImage).page k ≠ 0) →
      im.end ≤ (mapCutoff mmap.total).toNat ∧ (mapCutoff mmap.total).toNat ≤ 2 ^ 29) := by
  have hlen := bumpLength_eq mmap im
  have he := im.end_lt
  constructor
  · intro hagree hroom
    by_contra hcond
    -- the page at half a gigabyte, or the first one if the image reaches beyond that
    obtain ⟨n, hn⟩ : ∃ n, n = (2 ^ 29 - im.end) / 4096 := ⟨_, rfl⟩
    have hmod := im.end_mod
    have hfirst := lt_of_page mmap im (hroom 0 (by decide))
    have hlt : 4096 * n < bumpLength mmap im := by
      split_ifs at hlen with hle
      · omega
      · omega
    have h1 : 2 ^ 29 ≤ im.end + 4096 * n := by omega
    have h2 : im.end + 4096 * n < 2 ^ 30 := by omega
    have hpage := page_boot mmap im hlt
    have hne : (bootPmm mmap im.toPinionImage).page n ≠ 0 := by
      rw [hpage]
      intro hz
      have ht := congrArg BitVec.toNat hz
      rw [BitVec.toNat_add, BitVec.toNat_ofNat] at ht
      simp only [base, BitVec.reduceToNat] at ht
      omega
    obtain ⟨hin, htrans⟩ := transOf_device h1 h2
    have hone := hagree (initSource mmap im hroom) ⟨fun _ _ => 0, 0, 0⟩ rfl
      (fun k hk => if_pos hk) hroom n hne
    obtain ⟨own, hinv⟩ := pcxInit_tree (S := initSource mmap im hroom) ⟨fun _ _ => 0, 0, 0⟩
      fun k hk => by
        rw [show (initSource mmap im hroom).page k = _ from if_pos (by simpa using hk)]
        exact hroom k (by simpa using hk)
    rw [hpage, pcxGetTrans_eq, hinv.lookup_window hin, BitVec.add_comm base,
      BitVec.add_sub_cancel, BitVec.add_comm] at hone
    exact htrans hone
  · intro hcond S p0 htaken hS hroom n hn
    obtain ⟨hle, hcut⟩ := hcond hroom
    have hlt := lt_of_page mmap im hn
    rw [hlen, if_pos hle] at hlt
    obtain ⟨own, hinv⟩ := pcxInit_tree (S := S) p0 fun k hk => by
      rw [htaken, Nat.zero_add] at hk
      rw [hS k hk]
      exact hroom k hk
    obtain ⟨hin, htrans⟩ := transOf_memory (show im.end + 4096 * n < 2 ^ 29 by omega)
    rw [page_boot mmap im (lt_of_page mmap im hn), pcxGetTrans_eq, hinv.lookup_window hin, htrans,
      BitVec.add_comm base, BitVec.add_sub_cancel]

/-- With room for 258 pages in front of the cutoff and of the end of the window, pcx_init gets its
pages. -/
theorem room_of_le (hcut : im.end + 0x102000 ≤ (mapCutoff mmap.total).toNat)
    (hwin : im.end + 0x102000 ≤ 2 ^ 30) :
    ∀ k < 258, (bootPmm mmap im.toPinionImage).page k ≠ 0 := by
  intro k hk hz
  have hlen := bumpLength_eq mmap im
  rw [if_pos (by omega)] at hlen
  have ht := congrArg BitVec.toNat (hz.symm.trans (page_boot mmap im (n := k) (by omega)))
  rw [BitVec.toNat_add, BitVec.toNat_ofNat] at ht
  simp only [base, BitVec.reduceToNat] at ht
  omega

/-- For every boot map that pmm_init accepts, the frames that are computed from the pages of
pmm_alloc are those the pages are mapped to if and only if the image does not reach beyond the
cutoff and the cutoff not beyond half a gigabyte, when pcx_init gets its pages. -/
theorem frames_agree (mmap : UnfoldMmap) (im : LoadedImage) (st : PmmState)
    (h : pmmInit mmap im.toPinionImage = some st) : FramesAgree st.pmm ↔
      ((∀ k < 258, st.pmm.page k ≠ 0) →
        im.end ≤ (mapCutoff mmap.total).toNat ∧ (mapCutoff mmap.total).toNat ≤ 2 ^ 29) := by
  rw [(initialized_of_pmmInit h).pmm]
  exact framesAgree_iff

/-- An image of 64 KB. -/
def smallImage : LoadedImage :=
  ⟨⟨0xFFFFFFFFC0200000, 0xFFFFFFFFC0210000, by decide, by decide, by decide⟩, rfl⟩

theorem frames_agree_2GB : ∃ st,
    pmmInit ⟨0x80000000, [⟨0x100000, 0x7FF00000⟩]⟩ smallImage.toPinionImage = some st ∧
      FramesAgree st.pmm := by
  obtain ⟨st, hst, -⟩ := (pmmInit_spec ⟨0x80000000, [⟨0x100000, 0x7FF00000⟩]⟩
    smallImage.toPinionImage).1 (by decide)
  exact ⟨st, hst, (frames_agree _ smallImage st hst).mpr fun _ => ⟨by decide, by decide⟩⟩

/-- With 256 GB of memory the bump range reaches the device half of the window. -/
theorem frames_disagree : ¬ ∀ (mmap : UnfoldMmap) (im : LoadedImage) (st : PmmState),
    pmmInit mmap im.toPinionImage = some st → FramesAgree st.pmm := by
  intro h
  obtain ⟨st, hst, hinit⟩ := (pmmInit_spec ⟨0x4000000000, [⟨0x100000, 0x3FFFF00000⟩]⟩
    smallImage.toPinionImage).1 (by decide)
  have hagree := h _ smallImage st hst
  rw [hinit.pmm, framesAgree_iff] at hagree
  obtain ⟨-, hcut⟩ := hagree (room_of_le (by decide) (by decide))
  exact absurd hcut (by decide)

end Agree
end Pinion64
