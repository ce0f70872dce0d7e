import Pinion64.MemoryMap

/-! Which physical memory pmm_alloc hands out. -/
namespace Pinion64

/-- An entry of the object list; its base is a kernel address. -/
structure UnfoldObje where
  base : Word
  size : BitVec 32

section Rounding

/-- Masking the low bits rounds down. -/
theorem and_high_toNat (x : Word) {n : ℕ} (hn : n < 64) :
    (x &&& ((-1 : Word) <<< n)).toNat = x.toNat / 2 ^ n * 2 ^ n := by
  have hmask : x &&& ((-1 : Word) <<< n) = (x >>> n) <<< n := by
    apply BitVec.eq_of_getLsbD_eq
    intro i hi
    have hall : (-1 : Word) = BitVec.allOnes 64 := by decide
    rw [hall]
    simp only [BitVec.getLsbD_and, BitVec.getLsbD_shiftLeft, BitVec.getLsbD_ushiftRight,
      BitVec.getLsbD_allOnes, hi, decide_true, Bool.true_and]
    by_cases h : i < n
    · simp [h]
    · simp [h, show n + (i - n) = i by omega, show i - n < 64 by omega]
  rw [hmask, BitVec.toNat_shiftLeft, BitVec.toNat_ushiftRight, Nat.shiftRight_eq_div_pow,
    Nat.shiftLeft_eq]
  have hle : x.toNat / 2 ^ n * 2 ^ n ≤ x.toNat := Nat.div_mul_le_self ..
  exact Nat.mod_eq_of_lt (hle.trans_lt x.isLt)

theorem range_base (im : PinionImage) :
    (getPinionRange im).1.toNat = im.baseaddr.toNat / 4096 * 4096 :=
  and_high_toNat im.baseaddr (n := 12) (by decide)

theorem range_limit (im : PinionImage) :
    (getPinionRange im).2.toNat = (im.limitaddr.toNat + 4095) / 4096 * 4096 := by
  have h := and_high_toNat (-im.limitaddr) (n := 12) (by decide)
  have hb := im.below
  have hneg := BitVec.toNat_neg (im.limitaddr)
  have hgoal := BitVec.toNat_neg (-im.limitaddr &&& ((-1 : Word) <<< 12))
  change (-(-im.limitaddr &&& ((-1 : Word) <<< 12))).toNat = _
  rw [hgoal, h, hneg]
  omega

/-- The cutoff is a 256th of the memory rounded up to eight megabytes. -/
theorem mapCutoff_toNat (total : Word) :
    (mapCutoff total).toNat = (total.toNat / 256 + 0x7FFFFF) / 0x800000 * 0x800000 := by
  have h := and_high_toNat (-(total / 256)) (n := 23) (by decide)
  have hd : (total / 256).toNat = total.toNat / 256 := BitVec.toNat_udiv
  have ht := total.isLt
  rw [mapCutoff, BitVec.toNat_neg, h, BitVec.toNat_neg, hd]
  omega

end Rounding

section BootPmm

variable (mmap : UnfoldMmap) (im : PinionImage)

theorem bootPmm_base :
    (bootPmm mmap im).pmmBase.toNat = im.baseaddr.toNat / 4096 * 4096 - 0x200000 := by
  have ha := im.above
  have hb := range_base im
  have hle : (0x200000 : Word).toNat ≤ (getPinionRange im).1.toNat := by
    rw [hb]
    simp only [BitVec.reduceToNat]
    omega
  have hs := BitVec.toNat_sub_of_le hle
  rw [hb] at hs
  exact hs

/-- The physical end of the image, rounded up to a page. -/
def PinionImage.end (im : PinionImage) : ℕ :=
  (im.limitaddr.toNat + 4095) / 4096 * 4096 - (im.baseaddr.toNat / 4096 * 4096 - 0x200000)

theorem PinionImage.end_mod (im : PinionImage) : im.end % 4096 = 0 := by
  unfold PinionImage.end
  omega

theorem bootPmm_allocBase : (bootPmm mmap im).pmmAllocBase.toNat = im.end := by
  have ha := im.above
  have ho := im.ordered
  have hp := bootPmm_base mmap im
  have hl := range_limit im
  have hle : (bootPmm mmap im).pmmBase.toNat ≤ (getPinionRange im).2.toNat := by omega
  have hs := BitVec.toNat_sub_of_le hle
  rw [hl, hp] at hs
  exact hs

theorem bootPmm_walk (h : im.end ≤ (mapCutoff mmap.total).toNat) (n : ℕ) :
    ((bootPmm mmap im).after n).pmmAllocBase.toNat =
      min (im.end + 4096 * n) (mapCutoff mmap.total).toNat := by
  have ha := bootPmm_allocBase mmap im
  have hc := mapCutoff_toNat mmap.total
  rw [← ha] at h ⊢
  have hlim : (bootPmm mmap im).pmmAllocLimit = mapCutoff mmap.total := rfl
  have hmod : (bootPmm mmap im).pmmAllocBase.toNat % 4096 = 0 := ha ▸ im.end_mod
  rw [← hlim] at h hc ⊢
  exact Pmm.after_toNat hmod (by omega) h n

end BootPmm

section FreeRam

/-- The object has a byte at the physical address. -/
def UnfoldObje.Covers (pmmBase : Word) (o : UnfoldObje) (x : ℕ) : Prop :=
  (o.base - pmmBase).toNat ≤ x ∧ x < (o.base - pmmBase).toNat + o.size.toNat

/-- The page at the physical address `x` is usable memory that nobody else needs. -/
structure FreePage (mmap : UnfoldMmap) (im : PinionImage) (objl : List UnfoldObje) (st : PmmState)
    (x : ℕ) : Prop where
  usable : ∃ r ∈ mmap.entry, r.base.toNat ≤ x ∧ x + 4096 ≤ r.base.toNat + r.size.toNat
  image : (im.limitaddr - st.pmm.pmmBase).toNat ≤ x
  cutoff : x + 4096 ≤ st.pmmMapCutoff.toNat
  objects : ∀ o ∈ objl, ∀ y, x ≤ y → y < x + 4096 → ¬ o.Covers st.pmm.pmmBase y

/-- Every page that pmm_alloc returns is a free one. -/
def OnlyFreeRam (mmap : UnfoldMmap) (im : PinionImage) (objl : List UnfoldObje) : Prop :=
  ∃ st, pmmInit mmap im = some st ∧ ∀ n, st.pmm.page n ≠ 0 →
    FreePage mmap im objl st (st.pmm.page n - st.pmm.pmmBase).toNat

/-- The memory from the end of the image to the cutoff is usable and no object lies in it. A page
whose kernel address is NULL does not count. -/
structure FreeBelow (mmap : UnfoldMmap) (im : PinionImage) (objl : List UnfoldObje) : Prop where
  fits : Fits (mapCutoff mmap.total) mmap.entry
  room : im.end ≤ (mapCutoff mmap.total).toNat
  pages : ∀ x, im.end ≤ x → x < (mapCutoff mmap.total).toNat → x % 4096 = 0 →
    BitVec.ofNat 64 x + (bootPmm mmap im).pmmBase ≠ 0 →
    (∃ r ∈ mmap.entry, r.base.toNat ≤ x ∧ x + 4096 ≤ r.base.toNat + r.size.toNat) ∧
    ∀ o ∈ objl, ∀ y, x ≤ y → y < x + 4096 → ¬ o.Covers (bootPmm mmap im).pmmBase y

variable {mmap : UnfoldMmap} {im : PinionImage} {objl : List UnfoldObje}

/-- The image ends below its rounded end. -/
theorem image_end_le (mmap : UnfoldMmap) (im : PinionImage) :
    (im.limitaddr - (bootPmm mmap im).pmmBase).toNat ≤ im.end := by
  have hp := bootPmm_base mmap im
  have ha := im.above
  have ho := im.ordered
  have hle : (bootPmm mmap im).pmmBase.toNat ≤ im.limitaddr.toNat := by omega
  have hs := BitVec.toNat_sub_of_le hle
  unfold PinionImage.end
  omega

/-- The physical address of the answer is the state of the walk. -/
theorem page_sub_base (p : Pmm) {n : ℕ} (h : p.page n ≠ 0) :
    p.page n - p.pmmBase = (p.after n).pmmAllocBase ∧
      (p.after n).pmmAllocBase ≠ p.pmmAllocLimit := by
  rw [Pmm.page_eq_after] at h ⊢
  unfold pmmAlloc at h ⊢
  split_ifs at h ⊢ with he
  · exact absurd rfl h
  · rw [(p.after_fixed n).2] at he
    rw [(p.after_fixed n).1, BitVec.add_sub_cancel]
    exact ⟨rfl, he⟩

/-- An image that reaches beyond the cutoff makes the first page a wrong one. -/
theorem room_of_only {st : PmmState} (hst : Initialized mmap im st)
    (h : ∀ n, st.pmm.page n ≠ 0 →
      (st.pmm.page n - st.pmm.pmmBase).toNat + 4096 ≤ (mapCutoff mmap.total).toNat) :
    im.end ≤ (mapCutoff mmap.total).toNat := by
  by_contra hlt
  rw [hst.pmm] at h
  have ha := bootPmm_allocBase mmap im
  have hne : (bootPmm mmap im).pmmAllocBase ≠ (bootPmm mmap im).pmmAllocLimit := by
    intro he
    have hn := congrArg BitVec.toNat he
    rw [ha] at hn
    exact hlt hn.le
  have hpage : (bootPmm mmap im).page 0 = (getPinionRange im).2 := by
    change (pmmAlloc (bootPmm mmap im)).1 = _
    rw [pmmAlloc, if_neg hne]
    exact BitVec.sub_add_cancel ..
  have hnz : (bootPmm mmap im).page 0 ≠ 0 := by
    intro hz
    rw [hpage] at hz
    have hl := range_limit im
    have h1 := im.above
    have h2 := im.ordered
    rw [hz] at hl
    simp only [BitVec.ofNat_eq_ofNat, BitVec.toNat_zero] at hl
    omega
  have hx := h 0 hnz
  rw [(page_sub_base _ hnz).1] at hx
  change (bootPmm mmap im).pmmAllocBase.toNat + 4096 ≤ _ at hx
  rw [ha] at hx
  exact hlt (by omega)

/-- The answers that are not NULL are the pages from the end of the image to the cutoff. -/
theorem page_of_answer (h : im.end ≤ (mapCutoff mmap.total).toNat) {n : ℕ}
    (hn : (bootPmm mmap im).page n ≠ 0) : ∃ x, im.end ≤ x ∧ x < (mapCutoff mmap.total).toNat ∧
      x % 4096 = 0 ∧ BitVec.ofNat 64 x + (bootPmm mmap im).pmmBase ≠ 0 ∧
      ((bootPmm mmap im).page n - (bootPmm mmap im).pmmBase).toNat = x := by
  obtain ⟨hsub, hne⟩ := page_sub_base _ hn
  have hw := bootPmm_walk mmap im h n
  have hc : ((bootPmm mmap im).after n).pmmAllocBase.toNat ≠ (mapCutoff mmap.total).toNat :=
    fun he => hne (BitVec.eq_of_toNat_eq he)
  have hmod := im.end_mod
  rw [hsub]
  refine ⟨_, ?_, ?_, ?_, ?_, rfl⟩
  · omega
  · omega
  · omega
  · rw [BitVec.ofNat_toNat, BitVec.setWidth_eq, ← hsub, BitVec.sub_add_cancel]
    exact hn

theorem answer_of_page (h : im.end ≤ (mapCutoff mmap.total).toNat) {x : ℕ} (h1 : im.end ≤ x)
    (h2 : x < (mapCutoff mmap.total).toNat) (h3 : x % 4096 = 0) :
    ∃ n, (bootPmm mmap im).page n = BitVec.ofNat 64 x + (bootPmm mmap im).pmmBase := by
  have hmod := im.end_mod
  have hlt := (mapCutoff mmap.total).isLt
  have hw := bootPmm_walk mmap im h ((x - im.end) / 4096)
  have hx : ((bootPmm mmap im).after ((x - im.end) / 4096)).pmmAllocBase.toNat = x := by omega
  have hlim : (bootPmm mmap im).pmmAllocLimit = mapCutoff mmap.total := rfl
  have hne : ((bootPmm mmap im).after ((x - im.end) / 4096)).pmmAllocBase ≠
      ((bootPmm mmap im).after ((x - im.end) / 4096)).pmmAllocLimit := by
    intro he
    rw [(Pmm.after_fixed _ _).2, hlim] at he
    rw [he] at hx
    omega
  have hbv : ((bootPmm mmap im).after ((x - im.end) / 4096)).pmmAllocBase = BitVec.ofNat 64 x := by
    apply BitVec.eq_of_toNat_eq
    rw [hx, BitVec.toNat_ofNat]
    omega
  refine ⟨(x - im.end) / 4096, ?_⟩
  rw [Pmm.page_eq_after, pmmAlloc, if_neg hne, (Pmm.after_fixed _ _).1, hbv]

/-- The kernel allocates only free memory exactly if all memory between its image and the cutoff
is free. -/
theorem only_free_ram (mmap : UnfoldMmap) (im : PinionImage) (objl : List UnfoldObje) :
    OnlyFreeRam mmap im objl ↔ FreeBelow mmap im objl := by
  constructor
  · rintro ⟨st, hst, hall⟩
    have hfits := fits_of_pmmInit hst
    have hinit := initialized_of_pmmInit hst
    have hroom := room_of_only hinit fun n hn => hinit.cutoff ▸ (hall n hn).cutoff
    refine ⟨hfits, hroom, fun x h1 h2 h3 h4 => ?_⟩
    obtain ⟨n, hn⟩ := answer_of_page hroom h1 h2 h3
    have hlt := (mapCutoff mmap.total).isLt
    have hp := hall n
    rw [hinit.pmm, hn, BitVec.add_sub_cancel, BitVec.toNat_ofNat,
      Nat.mod_eq_of_lt (h2.trans hlt)] at hp
    have hfree := hp h4
    exact ⟨hfree.usable, hinit.pmm ▸ hfree.objects⟩
  · rintro ⟨hfits, hroom, hpages⟩
    obtain ⟨st, hst, hinit⟩ := (pmmInit_spec mmap im).1 hfits
    refine ⟨st, hst, fun n hn => ?_⟩
    rw [hinit.pmm] at hn ⊢
    obtain ⟨x, h1, h2, h3, h4, hx⟩ := page_of_answer hroom hn
    obtain ⟨husable, hobjects⟩ := hpages x h1 h2 h3 h4
    have hend := image_end_le mmap im
    have hc := mapCutoff_toNat mmap.total
    rw [hx]
    refine ⟨husable, ?_, ?_, hinit.pmm ▸ hobjects⟩
    · rw [hinit.pmm]
      exact hend.trans h1
    · rw [hinit.cutoff]
      omega

/-- With 128 MB of memory, an object that the boot loader has put right behind the image is handed
out as the second page. -/
theorem allocates_object : ¬ ∀ (mmap : UnfoldMmap) (im : PinionImage) (objl : List UnfoldObje),
    OnlyFreeRam mmap im objl := by
  intro h
  let mmap : UnfoldMmap := ⟨0x7F8FC00, [⟨0, 0x9FC00⟩, ⟨0x100000, 0x7EF0000⟩]⟩
  let im : PinionImage :=
    ⟨0xFFFFFFFFC0200000, 0xFFFFFFFFC0210000, by decide, by decide, by decide⟩
  let o : UnfoldObje := ⟨0xFFFFFFFFC0211000, 0x1000⟩
  obtain ⟨st, hst, hall⟩ := h mmap im [o]
  have hinit := initialized_of_pmmInit hst
  have hp := hall 1
  rw [hinit.pmm, show (bootPmm mmap im).page 1 = 0xFFFFFFFFC0211000 by decide] at hp
  have hobj := (hp (by decide)).objects o (List.mem_singleton_self o) 0x211000
  rw [hinit.pmm] at hobj
  exact hobj (by decide) (by decide) ⟨by decide, by decide⟩

end FreeRam
end Pinion64
