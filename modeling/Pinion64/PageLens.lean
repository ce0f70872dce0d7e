import Pinion64.Window

/-! pcx_set_frame as a lens on the page tables: what it enters is read back, and nothing else
changes. -/
namespace Pinion64
open Radix

variable {S : PageSource} {p : Paging}

/-- The two addresses lie on the same page, up to the sixteen bits that the walk ignores. -/
def SamePage (a b : Word) : Prop := a.toNat / 4096 % 2 ^ 36 = b.toNat / 4096 % 2 ^ 36

/-- The walk for the address ends in a large entry. -/
def UnderLarge (p : Paging) (addr : Word) : Prop :=
  ∃ i e, p.lookup addr = some (i + 1, e) ∧ e &&& pfLarge ≠ 0

/-- What a successful pcx_set_frame of one page has done. -/
structure FrameSet (p q : Paging) (addr frame flags : Word) : Prop where
  trans : flags &&& pfPres ≠ 0 → ∀ o : Word, o < 0x1000 → pcxGetTrans q 0 (addr + o) = frame + o
  kind : flags &&& pfPres ≠ 0 → ∀ o : Word, o < 0x1000 → pcxGetFlags q 0 (addr + o) = flags
  absent : flags &&& pfPres = 0 → ∀ o : Word, o < 0x1000 →
    pcxGetTrans q 0 (addr + o) = -1 ∧ pcxGetFlags q 0 (addr + o) = 0
  frame : ∀ b, ¬ SamePage b addr →
    pcxGetTrans q 0 b = pcxGetTrans p 0 b ∧ pcxGetFlags q 0 b = pcxGetFlags p 0 b

section Entry
variable {frame flags : Word}

theorem add_offset_toNat {addr o : Word} (ha : addr &&& 0xFFF = 0) (ho : o < 0x1000) :
    (addr + o).toNat = addr.toNat + o.toNat := by
  have hm := mod_of_aligned ha
  have hlt : o.toNat < 0x1000 := ho
  have hbound := addr.isLt
  rw [BitVec.toNat_add]
  exact Nat.mod_eq_of_lt (by omega)

theorem samePage_add {addr o : Word} (ha : addr &&& 0xFFF = 0) (ho : o < 0x1000) :
    SamePage (addr + o) addr := by
  have hm := mod_of_aligned ha
  have hlt : o.toNat < 0x1000 := ho
  unfold SamePage
  rw [add_offset_toNat ha ho]
  omega

theorem page_offset {addr o : Word} (ha : addr &&& 0xFFF = 0) (ho : o < 0x1000) :
    (addr + o) &&& offsetMask 0 = o := by
  have hm := mod_of_aligned ha
  have hlt : o.toNat < 0x1000 := ho
  have hmask : offsetMask 0 = 0xFFF := by decide
  apply BitVec.eq_of_toNat_eq
  rw [hmask, and_low_toNat, add_offset_toNat ha ho]
  omega

/-- The two halves of an entry do not overlap. -/
theorem entry_parts (hf : frame &&& 0xFFF = 0) (hf52 : frame.toNat < 2 ^ 52)
    (hg : flags &&& ~~~pfBits = 0) :
    frameOf (frame ||| flags) = frame ∧ (frame ||| flags) &&& pfBits = flags := by
  have hz : frame &&& pfBits = 0 := and_pfBits_eq_zero (mod_of_aligned hf) (by omega)
  refine ⟨frameOf_or hz hg, ?_⟩
  have hkeep : flags &&& pfBits = flags := by
    have hsplit : (flags &&& pfBits) ||| (flags &&& ~~~pfBits) = flags := by
      apply BitVec.eq_of_getLsbD_eq
      intro i hi
      simp only [BitVec.getLsbD_or, BitVec.getLsbD_and, BitVec.getLsbD_not, hi, decide_true,
        Bool.true_and]
      cases flags.getLsbD i <;> cases pfBits.getLsbD i <;> rfl
    rw [hg] at hsplit
    exact BitVec.or_zero.symm.trans hsplit
  rw [BitVec.and_comm, BitVec.and_or_distrib_left, BitVec.and_comm pfBits frame, hz,
    BitVec.and_comm pfBits flags, hkeep]
  exact BitVec.zero_or

theorem entry_pres (hf : frame &&& 0xFFF = 0) (hf52 : frame.toNat < 2 ^ 52)
    (hg : flags &&& ~~~pfBits = 0) : (frame ||| flags) &&& pfPres = flags &&& pfPres := by
  have hbits : pfBits &&& pfPres = pfPres := by decide
  have hparts := (entry_parts hf hf52 hg).2
  have hpres := congrArg (· &&& pfPres) hparts
  rwa [BitVec.and_assoc, hbits] at hpres

end Entry

theorem pinionPt2_large (i : BitVec 9) : pinionPt2 i &&& pfLarge ≠ 0 := by
  revert i
  decide

/-- A successful call is a lens update, a refused one changes nothing and was for an unaligned
address or for one that a large entry maps. -/
theorem page_lens {p0 : Paging} (h0 : S.Delivers (p0.pmmTaken + 258)) (h : PagingReach S p0 p)
    (addr frame flags : Word) (hf : frame &&& 0xFFF = 0) (hf52 : frame.toNat < 2 ^ 52)
    (hg : flags &&& ~~~pfBits = 0)
    (hd : S.Delivers (pcxSetFrame S p 0 addr 0x1000 frame flags).2.pmmTaken) :
    (pcxSetFrame S p 0 addr 0x1000 frame flags).1 = 0 ∧ addr &&& 0xFFF = 0 ∧
        FrameSet p (pcxSetFrame S p 0 addr 0x1000 frame flags).2 addr frame flags ∨
    (pcxSetFrame S p 0 addr 0x1000 frame flags).1 = 1 ∧
      (addr &&& 0xFFF ≠ 0 ∨ UnderLarge p addr) ∧
      ∀ b, pcxGetTrans (pcxSetFrame S p 0 addr 0x1000 frame flags).2 0 b = pcxGetTrans p 0 b ∧
        pcxGetFlags (pcxSetFrame S p 0 addr 0x1000 frame flags).2 0 b = pcxGetFlags p 0 b := by
  obtain ⟨own, hinv⟩ := h.inv h0 (TreeInv.Delivers.mono hd (pcxSetFrame_taken ..))
  by_cases ha : addr &&& 0xFFF = 0
  · have hed := pcxSetFrame_edited hinv ha frame flags hd
    obtain ⟨r, hr⟩ : ∃ r, pcxSetFrame S p 0 addr 0x1000 frame flags = r := ⟨_, rfl⟩
    rw [hr] at hed ⊢
    by_cases hw : InWindow addr
    · right
      refine ⟨hed.ret.trans (if_pos hw), Or.inr ?_, fun b => ?_⟩
      · exact ⟨0, _, hinv.lookup_window hw, pinionPt2_large _⟩
      · have hl := hed.lookup b
        rw [if_neg fun hc => hc.2 hw] at hl
        rw [pcxGetTrans_eq, pcxGetTrans_eq, pcxGetFlags_eq, pcxGetFlags_eq, hl]
        exact ⟨rfl, rfl⟩
    · left
      have hon : ∀ o : Word, o < 0x1000 → r.2.lookup (addr + o) = leafOf (frame ||| flags) := by
        intro o ho
        rw [hed.lookup, if_pos ⟨(samePage_iff _ _).mpr (samePage_add ha ho), hw⟩]
      obtain ⟨hfr, hfl⟩ := entry_parts hf hf52 hg
      have hpr := entry_pres hf hf52 hg
      refine ⟨hed.ret.trans (if_neg hw), ha, ?_, ?_, ?_, ?_⟩
      · intro hp o ho
        rw [pcxGetTrans_eq, hon o ho, leafOf, if_neg (by rwa [hpr]), transOf, hfr,
          page_offset ha ho]
      · intro hp o ho
        rw [pcxGetFlags_eq, hon o ho, leafOf, if_neg (by rwa [hpr]), flagsOf, hfl]
      · intro hp o ho
        rw [pcxGetTrans_eq, pcxGetFlags_eq, hon o ho, leafOf, if_pos (by rwa [hpr])]
        exact ⟨rfl, rfl⟩
      · intro b hb
        have hl := hed.lookup b
        rw [if_neg fun hc => hb ((samePage_iff _ _).mp hc.1)] at hl
        rw [pcxGetTrans_eq, pcxGetTrans_eq, pcxGetFlags_eq, pcxGetFlags_eq, hl]
        exact ⟨rfl, rfl⟩
  · right
    have hrej : pcxSetFrame S p 0 addr 0x1000 frame flags = (1, p) := by
      rw [pcxSetFrame_root, if_pos (Or.inr ha)]
    rw [hrej]
    exact ⟨rfl, Or.inl ha, fun _ => ⟨rfl, rfl⟩⟩

/-- A page entered after boot. -/
theorem page_lens_after_boot :
    pcxGetTrans (pcxSetFrame lowMemory (pcxInit lowMemory bootPaging) 0 0x400000 0x1000 0x201000
      0x3).2 0 (0x400000 + 0x234) = 0x201000 + 0x234 := by
  have h0 : lowMemory.Delivers (bootPaging.pmmTaken + 258) := lowMemory_delivers (by decide)
  have hd : lowMemory.Delivers (pcxSetFrame lowMemory (pcxInit lowMemory bootPaging) 0 0x400000
      0x1000 0x201000 0x3).2.pmmTaken := by
    refine lowMemory_delivers ((pcxSetFrame_taken_le ..).trans ?_)
    rw [pcxInit_taken]
    decide
  obtain ⟨own, hinv⟩ := pcxInit_inv bootPaging h0
  have haligned : (0x400000 : Word) &&& 0xFFF = 0 := by decide
  have hret := (pcxSetFrame_edited hinv haligned 0x201000 0x3 hd).ret
  rcases page_lens h0 .init 0x400000 0x201000 0x3 (by decide) (by decide) (by decide) hd with
    ⟨-, -, hset⟩ | ⟨h1, -⟩
  · exact hset.trans (by decide) 0x234 (by decide)
  · rw [h1] at hret
    exact absurd hret (by decide)

end Pinion64
