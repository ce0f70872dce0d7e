import Pinion64.AddressSpace

/-! The page tables with which unfold enters long mode, and what changes when pcx_init switches to
its own. -/
namespace Pinion64
open Radix

section Definitions

/-- The tables of .pagedata, which the linker script puts on a page boundary. -/
def longTables (pagedata : Word) (pt : Ptr) (i : BitVec 9) : Word :=
  let pt4 := pagedata
  let pt30 := pagedata + 0x1000
  let pt31 := pagedata + 0x2000
  let pt2 := pagedata + 0x3000
  if pt = pt4 + base then if i = 0 then pt30 + 3 else if i = 511 then pt31 + 3 else 0
  else if pt = pt30 + base then if i = 0 then pt2 + 3 else 0
  else if pt = pt31 + base then if i = 511 then pt2 + 3 else 0
  else if pt = pt2 + base then (i.setWidth 64 <<< 21) ||| 0x83
  else 0

/-- init_enter_long loads CR3 with pt4. -/
def longPaging (pagedata : Word) : Paging := ⟨longTables pagedata, pagedata + base, 0⟩

/-- The first gigabyte of physical memory, from 0 and from `base` on. -/
def longMmu (addr : Word) : Option (Word × Rights) :=
  if addr.toNat < 2 ^ 30 then some (addr, ⟨false, true⟩)
  else if base.toNat ≤ addr.toNat then some (addr - base, ⟨false, true⟩)
  else none

end Definitions

section Walk
variable {t : Word}

/-- An entry of the upper tables. -/
theorem long_entry (ha : t.toNat % 4096 = 0) (ht : t.toNat < 2 ^ 32) :
    (t + 3) &&& pfBits = pfPres ||| pfWrite ∧ hardwareFrame 0 (t + 3) = t := by
  have hz : t &&& pfBits = 0 := and_pfBits_eq_zero ha (by omega)
  have h3 : t &&& 3 = 0 := by
    have hm : (3 : Word) = pfBits &&& 3 := by decide
    rw [hm, ← BitVec.and_assoc, hz]
    exact BitVec.zero_and
  have hf : frameOf (t + 3) = t := by
    rw [BitVec.add_eq_or_of_and_eq_zero _ _ h3]
    exact frameOf_or hz (by decide)
  refine ⟨?_, ?_⟩
  · rw [BitVec.add_eq_or_of_and_eq_zero _ _ h3, BitVec.and_comm, BitVec.and_or_distrib_left,
      BitVec.and_comm pfBits t, hz]
    decide
  · rw [hardwareFrame_table (by rw [hf]; omega), hf]

/-- The walk goes through it. -/
theorem long_step {p : Paging} {addr : Word} {n : ℕ} {pt : Ptr} {r : Rights}
    (he : p.mem pt (tableIndex addr (n+1)) = t + 3) (ha : t.toNat % 4096 = 0)
    (ht : t.toNat < 2 ^ 32) :
    mmuFrom p addr (n+2) pt r = mmuFrom p addr (n+1) (t + base) ⟨false, r.write⟩ := by
  obtain ⟨hbits, hframe⟩ := long_entry ha ht
  have hflag : ∀ m, pfBits &&& m = m → (t + 3) &&& m = (pfPres ||| pfWrite) &&& m :=
    fun m => flag_of_bits hbits
  have hpass : r.pass (t + 3) = ⟨false, r.write⟩ := by
    rw [Rights.pass, hflag pfUser (by decide), hflag pfWrite (by decide)]
    simp [pfPres, pfWrite, pfUser]
  have hgo : ¬ ((t + 3) &&& pfPres = 0 ∨ Reserved (t + 3) ∨
      n + 1 = 3 ∧ (t + 3) &&& pfLarge ≠ 0) := by
    rw [Reserved, hflag pfPres (by decide), hflag pfNx (by decide), hflag pfLarge (by decide)]
    simp [pfPres, pfWrite, pfNx, pfLarge]
  have hdown : ¬ ((t + 3) &&& pfLarge ≠ 0 ∨ n + 1 = 0) := by
    rw [hflag pfLarge (by decide)]
    simp [pfPres, pfWrite, pfLarge]
  rw [mmuFrom, he, if_neg hgo, if_neg hdown, hframe, hpass]

theorem long_none {p : Paging} {addr : Word} {n : ℕ} {pt : Ptr} {r : Rights}
    (he : p.mem pt (tableIndex addr n) = 0) : mmuFrom p addr (n+1) pt r = none := by
  rw [mmuFrom, he]
  rfl

variable (pagedata : Word) (i : BitVec 9)

theorem longPaging_mem : (longPaging pagedata).mem = longTables pagedata := rfl

theorem longTables_pt4 : longTables pagedata (pagedata + base) i =
    if i = 0 then pagedata + 0x1000 + 3 else if i = 511 then pagedata + 0x2000 + 3 else 0 := by
  rw [longTables, if_pos rfl]

theorem longTables_pt30 : longTables pagedata (pagedata + 0x1000 + base) i =
    if i = 0 then pagedata + 0x3000 + 3 else 0 := by
  rw [longTables, if_neg, if_pos rfl]
  simp only [base]
  bv_omega

theorem longTables_pt31 : longTables pagedata (pagedata + 0x2000 + base) i =
    if i = 511 then pagedata + 0x3000 + 3 else 0 := by
  rw [longTables, if_neg, if_neg, if_pos rfl]
  all_goals
    simp only [base]
    bv_omega

theorem longTables_pt2 : longTables pagedata (pagedata + 0x3000 + base) i =
    (i.setWidth 64 <<< 21) ||| 0x83 := by
  rw [longTables, if_neg, if_neg, if_neg, if_pos rfl]
  all_goals
    simp only [base]
    bv_omega

theorem pt2_entry : ((i.setWidth 64 <<< 21) ||| 0x83) &&& pfBits = (0x83 : Word) ∧
    (hardwareFrame 1 ((i.setWidth 64 <<< 21) ||| 0x83)).toNat = i.toNat * 2 ^ 21 := by
  revert i
  decide +kernel

theorem low_toNat (addr : Word) : (addr &&& 0x3FFFFFFF).toNat = addr.toNat % 2 ^ 30 := by
  rw [BitVec.toNat_and]
  exact Nat.and_two_pow_sub_one_eq_mod addr.toNat 30

/-- The table that both gigabytes share. -/
theorem long_leaf (addr : Word) :
    mmuFrom (longPaging pagedata) addr 2 (pagedata + 0x3000 + base) ⟨false, true⟩ =
      some (addr &&& 0x3FFFFFFF, ⟨false, true⟩) := by
  obtain ⟨hbits, hframe⟩ := pt2_entry (tableIndex addr 1)
  rw [mmuFrom, longPaging_mem, longTables_pt2]
  generalize (((tableIndex addr 1).setWidth 64 <<< 21) ||| 0x83 : Word) = e at hbits hframe ⊢
  have hflag : ∀ m, pfBits &&& m = m → e &&& m = 0x83 &&& m := fun m => flag_of_bits hbits
  have hres : ¬ Reserved e := by
    rw [Reserved, hflag pfNx (by decide)]
    decide
  have hgo : ¬ (e &&& pfPres = 0 ∨ Reserved e ∨ 1 = 3 ∧ e &&& pfLarge ≠ 0) := by
    rintro (h | h | ⟨h, -⟩)
    · rw [hflag pfPres (by decide)] at h
      exact absurd h (by decide)
    · exact hres h
    · cases h
  have hl : e &&& pfLarge ≠ 0 ∨ 1 = 0 := by
    rw [hflag pfLarge (by decide)]
    exact Or.inl (by decide)
  have hpass : (⟨false, true⟩ : Rights).pass e = ⟨false, true⟩ := by
    rw [Rights.pass, hflag pfWrite (by decide)]
    simp [pfWrite]
  rw [if_neg hgo, if_pos hl, mmuLeaf, if_neg hres, hpass]
  have hi : (tableIndex addr 1).toNat = addr.toNat / 2 ^ 21 % 2 ^ 9 := by
    rw [tableIndex, BitVec.extractLsb'_toNat, Nat.shiftRight_eq_div_pow]
  congr 2
  apply BitVec.eq_of_toNat_eq
  rw [BitVec.toNat_add, hframe, offset_toNat, hi, low_toNat]
  omega

end Walk

section LongMode
variable {pagedata addr : Word}

theorem tableIndex_eq_iff (h : ℕ) (i : BitVec 9) :
    tableIndex addr h = i ↔ addr.toNat / 2 ^ (12 + 9 * h) % 2 ^ 9 = i.toNat := by
  rw [← BitVec.toNat_inj, tableIndex, BitVec.extractLsb'_toNat, Nat.shiftRight_eq_div_pow]

/-- The walk from the two tables below pt4. -/
theorem long_third (ha : pagedata.toNat % 4096 = 0) (hlt : pagedata.toNat + 0x4000 ≤ 2 ^ 32)
    (addr : Word) (pt : Ptr) {i : BitVec 9}
    (hpt : ∀ j, (longPaging pagedata).mem pt j = if j = i then pagedata + 0x3000 + 3 else 0) :
    mmuFrom (longPaging pagedata) addr 3 pt ⟨false, true⟩ =
      if tableIndex addr 2 = i then some (addr &&& 0x3FFFFFFF, ⟨false, true⟩) else none := by
  have h3 : (pagedata + 0x3000).toNat = pagedata.toNat + 0x3000 := by
    rw [BitVec.toNat_add]
    simp only [BitVec.reduceToNat]
    omega
  split_ifs with hi
  · rw [long_step (t := pagedata + 0x3000) (by rw [hpt, if_pos hi]) (by omega) (by omega)]
    exact long_leaf pagedata addr
  · exact long_none (by rw [hpt, if_neg hi])

/-- The walk reaches the gigabyte at 0, and the one at `base`. -/
theorem long_walk (ha : pagedata.toNat % 4096 = 0) (hlt : pagedata.toNat + 0x4000 ≤ 2 ^ 32)
    (addr : Word) : mmuFrom (longPaging pagedata) addr 4 (longPaging pagedata).pcxRoot ⟨true, true⟩ =
      if tableIndex addr 3 = 0 ∧ tableIndex addr 2 = 0 ∨ InWindow addr then
        some (addr &&& 0x3FFFFFFF, ⟨false, true⟩)
      else none := by
  have h1 : (pagedata + 0x1000).toNat = pagedata.toNat + 0x1000 := by
    rw [BitVec.toNat_add]
    simp only [BitVec.reduceToNat]
    omega
  have h2 : (pagedata + 0x2000).toNat = pagedata.toNat + 0x2000 := by
    rw [BitVec.toNat_add]
    simp only [BitVec.reduceToNat]
    omega
  have hroot : ∀ i, (longPaging pagedata).mem (longPaging pagedata).pcxRoot i =
      if i = 0 then pagedata + 0x1000 + 3 else if i = 511 then pagedata + 0x2000 + 3 else 0 := by
    intro i
    rw [longPaging_mem]
    exact longTables_pt4 pagedata i
  have hne : (511 : BitVec 9) ≠ 0 := by decide
  by_cases h0 : tableIndex addr 3 = 0
  · have hthird := long_third ha hlt addr (pagedata + 0x1000 + base) (i := 0) fun j => by
      rw [longPaging_mem, longTables_pt30]
    rw [long_step (t := pagedata + 0x1000) (by rw [hroot, if_pos h0]) (by omega) (by omega)]
    refine hthird.trans (if_congr ?_ rfl rfl)
    rw [InWindow, h0]
    simp
  · by_cases h511 : tableIndex addr 3 = 511
    · have hthird := long_third ha hlt addr (pagedata + 0x2000 + base) (i := 511) fun j => by
        rw [longPaging_mem, longTables_pt31]
      rw [long_step (t := pagedata + 0x2000) (by rw [hroot, if_neg h0, if_pos h511]) (by omega)
        (by omega)]
      refine hthird.trans (if_congr ?_ rfl rfl)
      rw [InWindow, h511]
      simp
    · rw [long_none (by rw [hroot, if_neg h0, if_neg h511]), if_neg]
      rintro (h | h)
      · exact h0 h.1
      · exact h511 h.1

/-- The processor enters long mode with the first gigabyte mapped twice, and nothing else. -/
theorem long_map (ha : pagedata.toNat % 4096 = 0) (hlt : pagedata.toNat + 0x4000 ≤ 2 ^ 32)
    (addr : Word) : (longPaging pagedata).mmu addr = longMmu addr := by
  have hbase : base.toNat = 0xFFFFFFFFC0000000 := rfl
  have hx := addr.isLt
  have h0 : (0 : BitVec 9).toNat = 0 := rfl
  rw [Paging.mmu, longMmu]
  by_cases hc : Canonical addr
  · rw [if_pos hc, long_walk ha hlt]
    rw [canonical_iff] at hc
    have hcond : tableIndex addr 3 = 0 ∧ tableIndex addr 2 = 0 ∨ InWindow addr ↔
        addr.toNat < 2 ^ 30 ∨ base.toNat ≤ addr.toNat := by
      rw [inWindow_iff, tableIndex_eq_iff, tableIndex_eq_iff, h0]
      omega
    by_cases hlow : addr.toNat < 2 ^ 30
    · rw [if_pos hlow, if_pos (hcond.mpr (Or.inl hlow))]
      congr 2
      apply BitVec.eq_of_toNat_eq
      rw [low_toNat]
      omega
    · rw [if_neg hlow]
      by_cases hhigh : base.toNat ≤ addr.toNat
      · have hsub : (addr - base).toNat = addr.toNat - base.toNat := BitVec.toNat_sub_of_le hhigh
        rw [if_pos hhigh, if_pos (hcond.mpr (Or.inr hhigh))]
        congr 2
        apply BitVec.eq_of_toNat_eq
        rw [low_toNat, hsub]
        omega
      · rw [if_neg hhigh, if_neg fun h => (hcond.mp h).elim hlow hhigh]
  · rw [if_neg hc]
    rw [canonical_iff] at hc
    rw [if_neg (by omega), if_neg (by omega)]

end LongMode

section Switch
variable {S : PageSource} {p : Paging} {m : AddressSpace} {pagedata : Word}

theorem pinionPt2_hardware (i : BitVec 9) : ¬ Reserved (pinionPt2 i) ∧
    pinionPt2 i &&& pfWrite ≠ 0 ∧ hardwareFrame 1 (pinionPt2 i) = frameOf (pinionPt2 i) := by
  revert i
  decide +kernel

/-- The window of the kernel as the processor finds it. -/
def windowAddr (addr : Word) : Word :=
  if addr.toNat < 0xFFFFFFFFE0000000 then addr - base else addr - base + 0xC0000000

theorem Represents.window (h : Represents S p m) (hd : S.Delivers p.pmmTaken) {addr : Word}
    (ha : InPinion addr) : p.mmu addr = some (windowAddr addr, ⟨false, true⟩) := by
  obtain ⟨own, htree, hlinked⟩ := h.tree
  have hb : base.toNat ≤ addr.toNat := ha
  have hbase : base.toNat = 0xFFFFFFFFC0000000 := rfl
  have hc : Canonical addr := (canonical_iff addr).mpr (Or.inr (by omega))
  have hsub : (addr - base).toNat = addr.toNat - base.toNat := BitVec.toNat_sub_of_le hb
  have hx := addr.isLt
  obtain ⟨hres, hwrite, hframe⟩ := pinionPt2_hardware (tableIndex addr 1)
  have hhigh : ¬ addr.toNat < 2 ^ 47 := by omega
  have haddr : transOf addr (some (1, pinionPt2 (tableIndex addr 1))) = windowAddr addr := by
    apply BitVec.eq_of_toNat_eq
    rw [transOf_toNat ha, windowAddr]
    split_ifs with hlow
    · omega
    · rw [BitVec.toNat_add, hsub]
      simp only [BitVec.reduceToNat]
      omega
  rw [mmu_eq htree hlinked hd hc, htree.lookup_window (inWindow_of_inPinion ha), Option.bind_some,
    mmuLeaf, if_neg hres, hframe, ← haddr, transOf, Rights.pass, decide_eq_false hhigh,
    decide_eq_true hwrite]
  rfl

/-- What the processor finds after pcx_init. -/
theorem init_mmu {p0 : Paging} (h0 : S.Delivers (p0.pmmTaken + 258)) (addr : Word) :
    (pcxInit S p0).mmu addr =
      if base.toNat ≤ addr.toNat then some (windowAddr addr, ⟨false, true⟩) else none := by
  have hrep := represents_init p0 h0
  have hd : S.Delivers (pcxInit S p0).pmmTaken := by rwa [pcxInit_taken]
  split_ifs with ha
  · exact hrep.window hd ha
  · by_cases hc : Canonical addr
    · obtain ⟨own, htree, hlinked⟩ := hrep.tree
      have hw : ¬ InWindow addr := by
        intro hw
        rw [inWindow_iff] at hw
        rw [canonical_iff] at hc
        have hbase : base.toNat = 0xFFFFFFFFC0000000 := rfl
        omega
      rw [mmu_eq htree hlinked hd hc, pcxInit_lookup p0 h0 hw]
      rfl
    · rw [Paging.mmu, if_neg hc]

/-- pcx_switch at the end of pcx_init is seen below the first gigabyte, which is unmapped, and in the
upper half of the window, which goes to the devices. Everywhere else the processor finds what it
found in the tables of long.s: the code goes on, and so do its stack and its data. -/
theorem switch_invisible {p0 : Paging} (h0 : S.Delivers (p0.pmmTaken + 258))
    (ha : pagedata.toNat % 4096 = 0) (hlt : pagedata.toNat + 0x4000 ≤ 2 ^ 32) (addr : Word) :
    (longPaging pagedata).mmu addr = (pcxInit S p0).mmu addr ↔
      2 ^ 30 ≤ addr.toNat ∧ addr.toNat < 0xFFFFFFFFE0000000 := by
  have hx := addr.isLt
  have hbase : base.toNat = 0xFFFFFFFFC0000000 := rfl
  rw [long_map ha hlt, init_mmu h0, longMmu]
  by_cases hlow : addr.toNat < 2 ^ 30
  · rw [if_pos hlow, if_neg (by omega)]
    exact iff_of_false (by simp) (by omega)
  · rw [if_neg hlow]
    by_cases hhigh : base.toNat ≤ addr.toNat
    · rw [if_pos hhigh, if_pos hhigh, windowAddr]
      have hsub : (addr - base).toNat = addr.toNat - base.toNat := BitVec.toNat_sub_of_le hhigh
      split_ifs with hhalf
      · exact iff_of_true rfl ⟨by omega, hhalf⟩
      · refine iff_of_false (fun he => ?_) (by omega)
        have hn := congrArg BitVec.toNat (Prod.mk.inj (Option.some.inj he)).1
        rw [BitVec.toNat_add, hsub] at hn
        simp only [BitVec.reduceToNat] at hn
        omega
    · rw [if_neg hhigh, if_neg hhigh]
      exact iff_of_true rfl (by omega)

/-- The first instruction of the kernel. -/
theorem switch_invisible_entry : (longPaging 0x104000).mmu 0xFFFFFFFFC0200000 =
    (pcxInit lowMemory bootPaging).mmu 0xFFFFFFFFC0200000 :=
  (switch_invisible (lowMemory_delivers (by decide)) (by decide) (by decide) _).mpr (by decide)

/-- What unfold has relocated by `base` is found there, in the tables of long.s, below one gigabyte,
and from pcx_init on below half a gigabyte, whatever has been asked of page.c. -/
theorem relocated_found {p0 : Paging} (h0 : S.Delivers (p0.pmmTaken + 258)) (cs : List PagingCall)
    (hd : S.Delivers (answers (Paging.call S) (pcxInit S p0) cs).2.pmmTaken)
    (ha : pagedata.toNat % 4096 = 0) (hlt : pagedata.toNat + 0x4000 ≤ 2 ^ 32) (x : Word) :
    ((longPaging pagedata).mmu (x + base) = some (x, ⟨false, true⟩) ↔ x.toNat < 2 ^ 30) ∧
      (x.toNat < 2 ^ 30 →
        ((answers (Paging.call S) (pcxInit S p0) cs).2.mmu (x + base) = some (x, ⟨false, true⟩) ↔
          x.toNat < 2 ^ 29)) := by
  have hlt64 := x.isLt
  have hbase : base.toNat = 0xFFFFFFFFC0000000 := rfl
  have hsum : (x + base).toNat = (x.toNat + 0xFFFFFFFFC0000000) % 2 ^ 64 := BitVec.toNat_add x base
  have hback : x + base - base = x := BitVec.add_sub_cancel x base
  refine ⟨?_, fun hx => ?_⟩
  · rw [long_map ha hlt, longMmu]
    by_cases hx : x.toNat < 2 ^ 30
    · rw [if_neg (by omega), if_pos (by omega), hback]
      exact iff_of_true rfl hx
    · refine iff_of_false (fun he => ?_) hx
      by_cases hlow : (x + base).toNat < 2 ^ 30
      · rw [if_pos hlow] at he
        have hn := congrArg BitVec.toNat (Prod.mk.inj (Option.some.inj he)).1
        omega
      · rw [if_neg hlow, if_neg (by omega)] at he
        cases he
  · obtain ⟨-, hrep⟩ := (represents_init p0 h0).answers hd
    have hin : InPinion (x + base) := by
      change base.toNat ≤ (x + base).toNat
      omega
    rw [hrep.window hd hin, windowAddr, hback]
    by_cases hhalf : x.toNat < 2 ^ 29
    · rw [if_pos (by omega)]
      exact iff_of_true rfl hhalf
    · rw [if_neg (by omega)]
      refine iff_of_false (fun he => ?_) hhalf
      have hn := congrArg BitVec.toNat (Prod.mk.inj (Option.some.inj he)).1
      rw [BitVec.toNat_add] at hn
      simp only [BitVec.reduceToNat] at hn
      omega

/-- An object behind half a gigabyte is lost with the switch. -/
theorem relocated_found_high : (longPaging 0x104000).mmu (0x20000000 + base) =
      some (0x20000000, ⟨false, true⟩) ∧
    (answers (Paging.call lowMemory) (pcxInit lowMemory bootPaging)
      [.setFrame 0x400000 0x1000 0x201000 0x7]).2.mmu (0x20000000 + base) ≠
        some (0x20000000, ⟨false, true⟩) :=
  have h := relocated_found (lowMemory_delivers (by decide)) _
    (boot_delivers 0x400000 0x201000 0x7 [] fun _ => rfl)
    (show (0x104000 : Ptr).toNat % 4096 = 0 by decide) (by decide) 0x20000000
  ⟨h.1.mpr (by decide), fun hc => absurd ((h.2 (by decide)).mp hc) (by decide)⟩

end Switch
end Pinion64
