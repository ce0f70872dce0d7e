import Pinion64.PageEdit

/-! The paging calls page_set and page_get. -/
namespace Pinion64

def pinionPageValid : Word := 0x0001
def pinionPageRead : Word := 0x0010
def pinionPageWrite : Word := 0x0020
def pinionPageExec : Word := 0x0040
def pinionPageUser : Word := 0x0080
def pinionPageAccessed : Word := 0x0100
def pinionPageDirty : Word := 0x0200
def pinionPageCacheDisable : Word := 0x1000
def pinionPageWriteThrough : Word := 0x2000

structure PageContent where
  paddr : Word
  flags : Word
  deriving DecidableEq

/-- `if (cond) flags |= bit` -/
def flagIf (cond : Prop) [Decidable cond] (bit : Word) : Word := if cond then bit else 0

/-- The flag conversion of page_get. -/
def cookedFlags (raw : Word) : Word :=
  if raw &&& pfValid = 0 then 0
  else
    pinionPageValid |||
    (if raw &&& pfPres = 0 then 0
     else
      flagIf (raw &&& pfNread = 0) pinionPageRead |||
      flagIf (raw &&& pfWrite ≠ 0) pinionPageWrite |||
      flagIf (raw &&& pfNx = 0) pinionPageExec |||
      flagIf (raw &&& pfUser ≠ 0) pinionPageUser |||
      flagIf (raw &&& pfPwt ≠ 0) pinionPageWriteThrough |||
      flagIf (raw &&& pfPcd ≠ 0) pinionPageCacheDisable) |||
    flagIf (raw &&& pfAccs ≠ 0) pinionPageAccessed |||
    flagIf (raw &&& pfDirty ≠ 0) pinionPageDirty

def apilogicPageGet (p : Paging) (vaddr : Word) : PageContent :=
  ⟨pcxGetTrans p 0 vaddr, cookedFlags (pcxGetFlags p 0 vaddr)⟩

/-- The flag conversion of page_set. -/
def rawFlags (flags : Word) : Word :=
  if flags &&& pinionPageValid = 0 then 0
  else
    pfValid |||
    (if flags &&& (pinionPageRead ||| pinionPageWrite ||| pinionPageExec) = 0 then 0
     else
      pfPres |||
      flagIf (flags &&& pinionPageRead = 0) pfNread |||
      flagIf (flags &&& pinionPageWrite ≠ 0) pfWrite |||
      flagIf (flags &&& pinionPageExec = 0) pfNx |||
      flagIf (flags &&& pinionPageUser ≠ 0) pfUser |||
      flagIf (flags &&& pinionPageWriteThrough ≠ 0) pfPwt |||
      flagIf (flags &&& pinionPageCacheDisable ≠ 0) pfPcd) |||
    flagIf (flags &&& pinionPageAccessed ≠ 0) pfAccs |||
    flagIf (flags &&& pinionPageDirty ≠ 0) pfDirty

/-- The loop over the pages of the range, with the pages left to do and the offset `i`. -/
def pageSetFrom (S : PageSource) (vbase pbase flags : Word) : ℕ → Word → Paging → Bool × Paging
  | 0, _, p => (true, p)
  | n+1, i, p =>
    let (r, p) := pcxSetFrame S p 0 (vbase + i) 0x1000 (pbase + i) flags
    if r ≠ 0 then (false, p) else pageSetFrom S vbase pbase flags n (i + 0x1000) p

/-- The converted flags are computed, but what pcx_set_frame is given is `flags` itself. -/
def apilogicPageSet (S : PageSource) (p : Paging) (vbase pbase flags size : Word) :
    Bool × Paging :=
  if (pbase ||| vbase ||| size) &&& 0xFFF ≠ 0 then (false, p)
  else
    let _rawFlags := rawFlags flags
    pageSetFrom S vbase pbase flags (size.toNat / 0x1000) 0 p

/-- A flags word made of the bits that pinion.h defines. -/
structure PageFlags where
  valid : Bool
  read : Bool
  write : Bool
  exec : Bool
  user : Bool
  accessed : Bool
  dirty : Bool
  cacheDisable : Bool
  writeThrough : Bool
  deriving DecidableEq

def PageFlags.word (f : PageFlags) : Word :=
  flagIf (f.valid = true) pinionPageValid |||
  flagIf (f.read = true) pinionPageRead |||
  flagIf (f.write = true) pinionPageWrite |||
  flagIf (f.exec = true) pinionPageExec |||
  flagIf (f.user = true) pinionPageUser |||
  flagIf (f.accessed = true) pinionPageAccessed |||
  flagIf (f.dirty = true) pinionPageDirty |||
  flagIf (f.cacheDisable = true) pinionPageCacheDisable |||
  flagIf (f.writeThrough = true) pinionPageWriteThrough

/-- Flags of a usable page: VALID and at least one kind of access. -/
def PageFlags.Usable (f : PageFlags) : Prop :=
  f.valid = true ∧ (f.read = true ∨ f.write = true ∨ f.exec = true)

instance (f : PageFlags) : Decidable f.Usable := by unfold PageFlags.Usable; infer_instance

/-- The one combination of usable flags that page_get reads back when it is entered in a page
table without conversion. -/
def selfReadingFlags : PageFlags :=
  ⟨true, true, false, true, false, false, true, true, false⟩

theorem PageFlags.forall_of_bool {P : PageFlags → Prop}
    (h : ∀ a b c d e f g i j : Bool, P ⟨a, b, c, d, e, f, g, i, j⟩) (f : PageFlags) : P f := by
  obtain ⟨a, b, c, d, e, f, g, i, j⟩ := f
  exact h a b c d e f g i j

/-- The two conversions of the API are inverse to each other on usable flags. -/
theorem cookedFlags_rawFlags (f : PageFlags) (h : f.Usable) :
    cookedFlags (rawFlags f.word &&& pfBits) = f.word := by
  revert h
  revert f
  apply PageFlags.forall_of_bool
  decide +kernel

theorem cookedFlags_word (f : PageFlags) (h : f.Usable) :
    cookedFlags (f.word &&& pfBits) = f.word ↔ f = selfReadingFlags := by
  revert h
  revert f
  apply PageFlags.forall_of_bool
  decide +kernel

theorem word_pres (f : PageFlags) (h : f.Usable) : f.word &&& pfPres ≠ 0 := by
  revert h
  revert f
  apply PageFlags.forall_of_bool
  decide +kernel

variable {S : PageSource}

/-- Paging states reachable after pcx_init by calls of pcx_set_frame. -/
inductive PagingReach (S : PageSource) (p0 : Paging) : Paging → Prop
  | init : PagingReach S p0 (pcxInit S p0)
  | setFrame {p} (h : PagingReach S p0 p) (addr size frame flags : Word) :
      PagingReach S p0 (pcxSetFrame S p 0 addr size frame flags).2

theorem pcxSetFrame_root (p : Paging) (addr size frame flags : Word) :
    pcxSetFrame S p 0 addr size frame flags =
      if size &&& 0xFFF ≠ 0 ∨ addr &&& 0xFFF ≠ 0 then (1, p)
      else pcxSetFrameFrom S addr frame flags 3 p.pcxRoot p := by
  rw [pcxSetFrame, if_pos rfl]

theorem pcxSetFrame_taken (p : Paging) (addr size frame flags : Word) :
    p.pmmTaken ≤ (pcxSetFrame S p 0 addr size frame flags).2.pmmTaken := by
  rw [pcxSetFrame_root]
  split_ifs
  · exact le_rfl
  · exact pcxSetFrameFrom_taken ..

theorem pcxSetFrame_taken_le (p : Paging) (addr size frame flags : Word) :
    (pcxSetFrame S p 0 addr size frame flags).2.pmmTaken ≤ p.pmmTaken + 3 := by
  rw [pcxSetFrame_root]
  split_ifs
  · exact Nat.le_add_right ..
  · exact pcxSetFrameFrom_taken_le ..

/-- One aligned pcx_set_frame on the root context. -/
theorem pcxSetFrame_edited {p : Paging} {own : Ptr → Option (List (BitVec 9))}
    {addr : Word} (h : TreeInv S p own) (ha : addr &&& 0xFFF = 0) (frame flags : Word)
    (hd : S.Delivers (pcxSetFrame S p 0 addr 0x1000 frame flags).2.pmmTaken) :
    Edited S p addr (frame ||| flags) (pcxSetFrame S p 0 addr 0x1000 frame flags) := by
  have he : pcxSetFrame S p 0 addr 0x1000 frame flags =
      pcxSetFrameFrom S addr frame flags 3 p.pcxRoot p := by
    rw [pcxSetFrame_root, if_neg]
    rintro (hs | hs)
    · exact hs (by decide)
    · exact hs ha
  rw [he] at hd ⊢
  exact pcxSetFrameFrom_edited h h.forest.own_root rfl rfl hd

theorem pcxSetFrame_inv {p : Paging} {own : Ptr → Option (List (BitVec 9))}
    {addr size frame flags : Word} (h : TreeInv S p own)
    (hd : S.Delivers (pcxSetFrame S p 0 addr size frame flags).2.pmmTaken) :
    ∃ own', TreeInv S (pcxSetFrame S p 0 addr size frame flags).2 own' := by
  rw [pcxSetFrame_root] at hd ⊢
  split_ifs at hd ⊢ with hz
  · exact ⟨own, h⟩
  · exact (pcxSetFrameFrom_edited h h.forest.own_root rfl rfl hd).inv

theorem pcxInit_taken (p : Paging) : (pcxInit S p).pmmTaken = p.pmmTaken + 258 := by
  simp only [pcxInit, pgeAlloc, pcxInitUpper_frame]

theorem PagingReach.inv {p0 p : Paging} (h : PagingReach S p0 p)
    (h0 : S.Delivers (p0.pmmTaken + 258)) (hd : S.Delivers p.pmmTaken) :
    ∃ own, TreeInv S p own := by
  induction h with
  | init => exact pcxInit_inv p0 h0
  | setFrame h addr size frame flags ih =>
    obtain ⟨own, hi⟩ := ih (TreeInv.Delivers.mono hd (pcxSetFrame_taken ..))
    exact pcxSetFrame_inv hi hd

theorem pageSetFrom_taken (vbase pbase flags : Word) (n : ℕ) (i : Word) (p : Paging) :
    p.pmmTaken ≤ (pageSetFrom S vbase pbase flags n i p).2.pmmTaken := by
  induction n generalizing i p with
  | zero => exact le_rfl
  | succ n ih =>
    simp only [pageSetFrom]
    split_ifs
    · exact pcxSetFrame_taken ..
    · exact (pcxSetFrame_taken ..).trans (ih _ _)

theorem apilogicPageSet_taken (p : Paging) (vbase pbase flags size : Word) :
    p.pmmTaken ≤ (apilogicPageSet S p vbase pbase flags size).2.pmmTaken := by
  unfold apilogicPageSet
  split_ifs
  · exact le_rfl
  · exact pageSetFrom_taken ..

theorem pageSetFrom_taken_le (vbase pbase flags : Word) (n : ℕ) (i : Word) (p : Paging) :
    (pageSetFrom S vbase pbase flags n i p).2.pmmTaken ≤ p.pmmTaken + 3 * n := by
  induction n generalizing i p with
  | zero => exact Nat.le_add_right ..
  | succ n ih =>
    have h1 := pcxSetFrame_taken_le (S := S) p (vbase + i) 0x1000 (pbase + i) flags
    simp only [pageSetFrom]
    split_ifs
    · exact h1.trans (by omega)
    · have h2 := ih (i + 0x1000) (pcxSetFrame S p 0 (vbase + i) 0x1000 (pbase + i) flags).2
      omega

/-- The virtual address of the `k`-th page of a range. -/
def nthPage (x i : Word) (k : ℕ) : Word := x + (i + BitVec.ofNat 64 (0x1000 * k))

theorem nthPage_zero (x i : Word) : nthPage x i 0 = x + i := by simp [nthPage]

theorem nthPage_start (x : Word) : nthPage x 0 0 = x := (nthPage_zero x 0).trans (BitVec.add_zero x)

theorem nthPage_succ (x i : Word) (k : ℕ) : nthPage x (i + 0x1000) k = nthPage x i (k+1) := by
  have h : BitVec.ofNat 64 (0x1000 * (k+1)) = 0x1000 + BitVec.ofNat 64 (0x1000 * k) := by
    rw [Nat.mul_add, Nat.add_comm, BitVec.ofNat_add]
    rfl
  rw [nthPage, nthPage, h, BitVec.add_assoc i]

theorem aligned_nthPage {x i : Word} (hx : x &&& 0xFFF = 0) (hi : i &&& 0xFFF = 0) (k : ℕ) :
    nthPage x i k &&& 0xFFF = 0 := by
  have low : ∀ y : Word, y &&& 0xFFF = 0 ↔ y.toNat % 4096 = 0 := by
    intro y
    have hy : (y &&& 0xFFF).toNat = y.toNat % 4096 := by
      rw [BitVec.toNat_and]
      exact Nat.and_two_pow_sub_one_eq_mod y.toNat 12
    constructor
    · intro h
      rw [← hy, h]
      rfl
    · intro h
      exact BitVec.eq_of_toNat_eq (hy.trans h)
  rw [low] at hx hi ⊢
  rw [nthPage, BitVec.toNat_add, BitVec.toNat_add, BitVec.toNat_ofNat]
  omega

theorem samePage_iff (a b : Word) :
    pathFrom a 4 = pathFrom b 4 ↔ a.toNat / 4096 % 2 ^ 36 = b.toNat / 4096 % 2 ^ 36 := by
  rw [pathFrom_eq_iff, ← BitVec.toNat_inj, BitVec.extractLsb'_toNat, BitVec.extractLsb'_toNat,
    Nat.shiftRight_eq_div_pow, Nat.shiftRight_eq_div_pow]

/-- The window is the last gigabyte of the addresses that the walk tells apart. -/
theorem inWindow_iff (a : Word) :
    InWindow a ↔ 2 ^ 36 - 2 ^ 18 ≤ a.toNat / 4096 % 2 ^ 36 := by
  unfold InWindow
  rw [← BitVec.toNat_inj, ← BitVec.toNat_inj, tableIndex, tableIndex, BitVec.extractLsb'_toNat,
    BitVec.extractLsb'_toNat, Nat.shiftRight_eq_div_pow, Nat.shiftRight_eq_div_pow]
  simp only [BitVec.reduceToNat]
  omega

theorem nthPage_number (x i : Word) (k : ℕ) :
    (nthPage x i k).toNat / 4096 % 2 ^ 36 = ((x + i).toNat / 4096 + k) % 2 ^ 36 := by
  rw [nthPage, ← BitVec.add_assoc, BitVec.toNat_add, BitVec.toNat_ofNat]
  omega

/-- The pages of a range that keeps clear of the window are different ones. -/
theorem clear_distinct {x i : Word} {m : ℕ} (h : ∀ k < m, ¬ InWindow (nthPage x i k)) {j k : ℕ}
    (hjk : j < k) (hk : k < m) : pathFrom (nthPage x i j) 4 ≠ pathFrom (nthPage x i k) 4 := by
  intro he
  rw [samePage_iff, nthPage_number, nthPage_number] at he
  have hj := h j (by omega)
  have hw := h (j + (2 ^ 36 - 2 ^ 18 - ((x + i).toNat / 4096 + j) % 2 ^ 36)) (by omega)
  rw [inWindow_iff, nthPage_number] at hj hw
  omega

theorem aligned_next {i : Word} (hi : i &&& 0xFFF = 0) : i + 0x1000 &&& 0xFFF = 0 := by
  have := aligned_nthPage (x := 0) (i := i) (by decide) hi 1
  simpa [nthPage] using this

/-- Outcome of the loop of page_set over `n` pages: it stops before the first page of the window,
and has entered all pages up to there. -/
structure PageSetOutcome (p : Paging) (vbase pbase flags i : Word) (n m : ℕ) (r : Bool × Paging) :
    Prop where
  le : m ≤ n
  ret : r.1 = true ↔ m = n
  clear : ∀ k < m, ¬ InWindow (nthPage vbase i k)
  stop : m = n ∨ InWindow (nthPage vbase i m)
  mapped : ∀ k < m, ∀ b, pathFrom b 4 = pathFrom (nthPage vbase i k) 4 →
    r.2.lookup b = leafOf (nthPage pbase i k ||| flags)
  kept : ∀ b, (∀ k < m, pathFrom b 4 ≠ pathFrom (nthPage vbase i k) 4) →
    r.2.lookup b = p.lookup b

theorem pageSetFrom_outcome {vbase pbase flags : Word} {n : ℕ} {i : Word} {p : Paging}
    {own : Ptr → Option (List (BitVec 9))} (h : TreeInv S p own) (hv : vbase &&& 0xFFF = 0)
    (hi : i &&& 0xFFF = 0)
    (hd : S.Delivers (pageSetFrom S vbase pbase flags n i p).2.pmmTaken) :
    ∃ m, PageSetOutcome p vbase pbase flags i n m (pageSetFrom S vbase pbase flags n i p) := by
  induction n generalizing i p own with
  | zero =>
    exact ⟨0, le_rfl, by simp [pageSetFrom], fun k hk => absurd hk (Nat.not_lt_zero k), Or.inl rfl,
      fun k hk => absurd hk (Nat.not_lt_zero k), fun b _ => rfl⟩
  | succ n ih =>
    have ha : vbase + i &&& 0xFFF = 0 := by
      have := aligned_nthPage hv hi 0
      rwa [nthPage_zero] at this
    have hstep : pageSetFrom S vbase pbase flags (n+1) i p =
        if (pcxSetFrame S p 0 (vbase + i) 0x1000 (pbase + i) flags).1 ≠ 0 then
          (false, (pcxSetFrame S p 0 (vbase + i) 0x1000 (pbase + i) flags).2)
        else pageSetFrom S vbase pbase flags n (i + 0x1000)
          (pcxSetFrame S p 0 (vbase + i) 0x1000 (pbase + i) flags).2 := rfl
    rw [hstep] at hd ⊢
    generalize hq : pcxSetFrame S p 0 (vbase + i) 0x1000 (pbase + i) flags = q at hd ⊢
    have hed : Edited S p (vbase + i) ((pbase + i) ||| flags) q := by
      rw [← hq]
      apply pcxSetFrame_edited h ha (pbase + i) flags
      rw [hq]
      refine TreeInv.Delivers.mono hd ?_
      split_ifs
      · exact le_rfl
      · exact pageSetFrom_taken ..
    have hret := hed.ret
    by_cases hwin : InWindow (vbase + i)
    · rw [if_pos hwin] at hret
      rw [hret, if_pos one_ne_zero]
      refine ⟨0, Nat.zero_le _, by simp, fun k hk => absurd hk (Nat.not_lt_zero k), Or.inr ?_,
        fun k hk => absurd hk (Nat.not_lt_zero k), fun b _ => ?_⟩
      · rwa [nthPage_zero]
      · rw [hed.lookup, if_neg fun hb => hb.2 hwin]
    · rw [if_neg hwin] at hret
      rw [hret, if_neg (not_not.mpr rfl)] at hd ⊢
      obtain ⟨own', hinv⟩ := hed.inv
      obtain ⟨m, hm⟩ := ih hinv (aligned_next hi) hd
      have hclear : ∀ k < m + 1, ¬ InWindow (nthPage vbase i k) := by
        intro k hk
        cases k with
        | zero => rwa [nthPage_zero]
        | succ k =>
          rw [← nthPage_succ]
          exact hm.clear k (by omega)
      refine ⟨m + 1, Nat.succ_le_succ hm.le, ?_, hclear, ?_, fun k hk b hb => ?_, fun b hb => ?_⟩
      · rw [hm.ret, Nat.succ_inj]
      · rw [← nthPage_succ, Nat.succ_inj]
        exact hm.stop
      · cases k with
        | zero =>
          rw [hm.kept b, hed.lookup, if_pos, nthPage_zero]
          · rw [nthPage_zero] at hb
            exact ⟨hb, hwin⟩
          · intro j hj
            rw [hb, nthPage_succ]
            exact clear_distinct hclear (by omega) (by omega)
        | succ k =>
          rw [← nthPage_succ] at hb ⊢
          exact hm.mapped k (by omega) b hb
      · rw [hm.kept b, hed.lookup, if_neg]
        · rintro ⟨hb', -⟩
          exact hb 0 (by omega) (by rw [nthPage_zero]; exact hb')
        · intro k hk
          rw [nthPage_succ]
          exact hb (k+1) (by omega)

/-- A page_set that keeps clear of the pinion window is accepted. -/
theorem pageSetFrom_accepts {vbase pbase flags : Word} {n : ℕ} {i : Word} {p : Paging}
    {own : Ptr → Option (List (BitVec 9))} (h : TreeInv S p own) (hv : vbase &&& 0xFFF = 0)
    (hi : i &&& 0xFFF = 0) (hw : ∀ k < n, ¬ InWindow (nthPage vbase i k))
    (hd : S.Delivers (p.pmmTaken + 3 * n)) :
    (pageSetFrom S vbase pbase flags n i p).1 = true := by
  induction n generalizing i p own with
  | zero => rfl
  | succ n ih =>
    have ha : vbase + i &&& 0xFFF = 0 := by
      have := aligned_nthPage hv hi 0
      rwa [nthPage_zero] at this
    have ht := pcxSetFrame_taken_le (S := S) p (vbase + i) 0x1000 (pbase + i) flags
    have hed := pcxSetFrame_edited h ha (pbase + i) flags
      (TreeInv.Delivers.mono hd (by omega))
    obtain ⟨own', hinv⟩ := hed.inv
    have hret := hed.ret
    rw [if_neg (by rw [← nthPage_zero]; exact hw 0 (by omega))] at hret
    simp only [pageSetFrom, hret, ne_eq, not_true_eq_false, if_false]
    apply ih hinv
    · exact aligned_next hi
    · intro k hk
      rw [nthPage_succ]
      exact hw (k+1) (by omega)
    · exact TreeInv.Delivers.mono hd (by omega)

/-- Arguments of a page_set over whole pages: aligned, the physical range below 2^52, the
virtual range inside one canonical half. -/
structure PageRange (vbase pbase size : Word) : Prop where
  virtual_aligned : vbase &&& 0xFFF = 0
  physical_aligned : pbase &&& 0xFFF = 0
  size_aligned : size &&& 0xFFF = 0
  physical : pbase.toNat + size.toNat ≤ 2 ^ 52
  canonical : vbase.toNat + size.toNat ≤ 2 ^ 47 ∨
    2 ^ 64 - 2 ^ 47 ≤ vbase.toNat ∧ vbase.toNat + size.toNat ≤ 2 ^ 64

theorem and_low_toNat (x : Word) : (x &&& 0xFFF).toNat = x.toNat % 4096 := by
  rw [BitVec.toNat_and]
  exact Nat.and_two_pow_sub_one_eq_mod x.toNat 12

theorem mod_of_aligned {x : Word} (h : x &&& 0xFFF = 0) : x.toNat % 4096 = 0 := by
  rw [← and_low_toNat, h]
  rfl

namespace PageRange

variable {vbase pbase size : Word}

theorem nthPage_toNat {x : Word} {k : ℕ} (hx : x.toNat + size.toNat ≤ 2 ^ 64)
    (hk : k < size.toNat / 0x1000) : (nthPage x 0 k).toNat = x.toNat + 4096 * k := by
  have hzero : (0 : Word) + BitVec.ofNat 64 (0x1000 * k) = _ := BitVec.zero_add _
  rw [nthPage, hzero, BitVec.toNat_add, BitVec.toNat_ofNat]
  omega

theorem virtual_le (h : PageRange vbase pbase size) : vbase.toNat + size.toNat ≤ 2 ^ 64 := by
  have := h.canonical
  omega

theorem page_of_offset (h : PageRange vbase pbase size) {i : Word} (hi : i < size) :
    i.toNat / 4096 < size.toNat / 0x1000 ∧
      pathFrom (vbase + i) 4 = pathFrom (nthPage vbase 0 (i.toNat / 4096)) 4 := by
  have hlt : i.toNat < size.toNat := hi
  have hs := mod_of_aligned h.size_aligned
  have hv := mod_of_aligned h.virtual_aligned
  have hle := h.virtual_le
  have hk : i.toNat / 4096 < size.toNat / 0x1000 := by omega
  refine ⟨hk, ?_⟩
  rw [samePage_iff, nthPage_toNat hle hk, BitVec.toNat_add]
  omega

theorem frame_bits (h : PageRange vbase pbase size) {k : ℕ} (hk : k < size.toNat / 0x1000) :
    nthPage pbase 0 k &&& pfBits = 0 := by
  have hp := mod_of_aligned h.physical_aligned
  have hph := h.physical
  have hle : pbase.toNat + size.toNat ≤ 2 ^ 64 := by omega
  have hn := nthPage_toNat hle hk
  exact and_pfBits_eq_zero (by omega) (by omega)

theorem pageSet_eq (h : PageRange vbase pbase size) (p : Paging) (flags : Word) :
    apilogicPageSet S p vbase pbase flags size =
      pageSetFrom S vbase pbase flags (size.toNat / 0x1000) 0 p := by
  have haligned : (pbase ||| vbase ||| size) &&& 0xFFF = 0 := by
    rw [BitVec.and_comm, BitVec.and_or_distrib_left, BitVec.and_or_distrib_left,
      BitVec.and_comm _ pbase, BitVec.and_comm _ vbase, BitVec.and_comm _ size,
      h.physical_aligned, h.virtual_aligned, h.size_aligned]
    rfl
  rw [apilogicPageSet, if_neg (not_not.mpr haligned)]

end PageRange

/-- What page_get reads from a last-level entry in which a flags word was entered unconverted. -/
theorem apilogicPageGet_raw {p : Paging} {v x : Word} {f : PageFlags} (hf : f.Usable)
    (hx : x &&& pfBits = 0) (h : p.lookup v = leafOf (x ||| f.word)) :
    apilogicPageGet p v =
      ⟨(x ||| (f.word &&& ~~~pfBits)) + (v &&& 0xFFF), cookedFlags (f.word &&& pfBits)⟩ := by
  have hlow : ∀ m : Word, m &&& pfBits = m → (x ||| f.word) &&& m = f.word &&& m := by
    intro m hm
    rw [← hm, BitVec.and_comm m, ← BitVec.and_assoc, ← BitVec.and_assoc]
    congr 1
    rw [BitVec.and_comm, BitVec.and_or_distrib_left, BitVec.and_comm _ x, hx, BitVec.and_comm _ f.word]
    exact BitVec.zero_or
  have hframe : frameOf (x ||| f.word) = x ||| (f.word &&& ~~~pfBits) := by
    have hself := frameOf_or (f := 0) hx (by decide)
    rw [show x ||| 0 = x from BitVec.or_zero, frameOf] at hself
    rw [frameOf, BitVec.and_comm, BitVec.and_or_distrib_left, BitVec.and_comm _ x,
      BitVec.and_comm _ f.word, hself]
  have hpres : (x ||| f.word) &&& pfPres ≠ 0 := by
    rw [hlow pfPres (by decide)]
    exact word_pres f hf
  rw [apilogicPageGet, pcxGetTrans_eq, pcxGetFlags_eq, h, leafOf, if_neg hpres]
  simp only [transOf, flagsOf, hframe, hlow pfBits (BitVec.and_self)]
  rfl

theorem or_bit12 (x : Word) : x ||| 0x1000 = x ↔ x.getLsbD 12 = true := by
  constructor
  · intro h
    have hb := congrArg (fun y : Word => y.getLsbD 12) h
    simpa using hb.symm
  · intro h
    rw [show (0x1000 : Word) = BitVec.twoPow 64 12 by decide]
    apply BitVec.eq_of_getLsbD_eq
    intro i hi
    by_cases he : i = 12
    · subst he
      simp [h]
    · simp [BitVec.getLsbD_twoPow, Ne.symm he]

/-- What page_get reads inside a range that page_set has accepted. -/
theorem apilogicPageGet_pageSet {p : Paging} {own : Ptr → Option (List (BitVec 9))}
    {vbase pbase size : Word} {f : PageFlags} (hinv : TreeInv S p own)
    (hr : PageRange vbase pbase size) (hf : f.Usable)
    (hd : S.Delivers (apilogicPageSet S p vbase pbase f.word size).2.pmmTaken)
    (hret : (apilogicPageSet S p vbase pbase f.word size).1 = true) {i : Word} (hi : i < size) :
    apilogicPageGet (apilogicPageSet S p vbase pbase f.word size).2 (vbase + i) =
      ⟨(nthPage pbase 0 (i.toNat / 4096) ||| (f.word &&& ~~~pfBits)) + ((vbase + i) &&& 0xFFF),
        cookedFlags (f.word &&& pfBits)⟩ := by
  rw [hr.pageSet_eq] at hd hret ⊢
  obtain ⟨m, hm⟩ := pageSetFrom_outcome hinv hr.virtual_aligned (by decide) hd
  obtain rfl := hm.ret.mp hret
  obtain ⟨hk, hpath⟩ := hr.page_of_offset hi
  exact apilogicPageGet_raw hf (hr.frame_bits hk) (hm.mapped _ hk _ hpath)

/-- page_get returns what page_set was given for no range of two pages or more, and for one page
just if the flags are those that survive unconverted and hide bit 12 in the address. -/
theorem page_round_trip {p0 p : Paging} {vbase pbase size : Word} {f : PageFlags}
    (hp : PagingReach S p0 p) (h0 : S.Delivers (p0.pmmTaken + 258))
    (hr : PageRange vbase pbase size) (hf : f.Usable)
    (hd : S.Delivers (apilogicPageSet S p vbase pbase f.word size).2.pmmTaken)
    (hret : (apilogicPageSet S p vbase pbase f.word size).1 = true) :
    (∀ i < size, apilogicPageGet (apilogicPageSet S p vbase pbase f.word size).2 (vbase + i) =
      ⟨pbase + i, f.word⟩) ↔
    size = 0 ∨ size = 0x1000 ∧ f = selfReadingFlags ∧ pbase.getLsbD 12 = true := by
  obtain ⟨own, hinv⟩ := hp.inv h0 (TreeInv.Delivers.mono hd (apilogicPageSet_taken ..))
  have hget := fun i hi => apilogicPageGet_pageSet hinv hr hf hd hret (i := i) hi
  have hv := mod_of_aligned hr.virtual_aligned
  have hs := mod_of_aligned hr.size_aligned
  have hph := hr.physical
  constructor
  · intro hall
    by_cases hz : size = 0
    · exact Or.inl hz
    have hpos : 0 < size.toNat := Nat.pos_of_ne_zero fun he => hz (BitVec.eq_of_toNat_eq he)
    have hself : f = selfReadingFlags := by
      have h1 := hall 0 hpos
      rw [hget 0 hpos] at h1
      exact (cookedFlags_word f hf).mp (congrArg PageContent.flags h1)
    have hbit : ∀ i : Word, i < size → i.toNat % 4096 = 0 → (pbase + i).getLsbD 12 = true := by
      intro i hi hi0
      have h1 := congrArg PageContent.paddr (hall i hi)
      obtain ⟨hk, -⟩ := hr.page_of_offset hi
      have hz' : (vbase + i) &&& 0xFFF = 0 := by
        apply BitVec.eq_of_toNat_eq
        rw [and_low_toNat, BitVec.toNat_add]
        simp only [BitVec.reduceToNat]
        omega
      have hn : nthPage pbase 0 (i.toNat / 4096) = pbase + i := by
        apply BitVec.eq_of_toNat_eq
        have hle : pbase.toNat + size.toNat ≤ 2 ^ 64 := by omega
        rw [PageRange.nthPage_toNat hle hk, BitVec.toNat_add]
        have : i.toNat < size.toNat := hi
        omega
      rw [hget i hi, hz', hn, hself, show selfReadingFlags.word &&& ~~~pfBits = 0x1000 by decide] at h1
      exact (or_bit12 _).mp ((BitVec.add_zero _).symm.trans h1)
    refine Or.inr ⟨?_, hself, by simpa using hbit 0 hpos (by simp)⟩
    by_contra hne
    have hbig : (0x1000 : Word) < size := by
      have : size.toNat ≠ 0x1000 := fun he => hne (BitVec.eq_of_toNat_eq he)
      change (0x1000 : Word).toNat < size.toNat
      simp only [BitVec.reduceToNat]
      omega
    have h0 := hbit 0 hpos (by simp)
    have h1 := hbit 0x1000 hbig (by decide)
    rw [show pbase + 0 = pbase from BitVec.add_zero _] at h0
    simp only [BitVec.getLsbD, Nat.testBit_eq_decide_div_mod_eq, decide_eq_true_eq,
      BitVec.toNat_add, BitVec.reduceToNat] at h0 h1
    have hp0 := mod_of_aligned hr.physical_aligned
    omega
  · rintro (rfl | ⟨rfl, rfl, hb⟩) i hi
    · exact absurd hi (Nat.not_lt_zero _)
    · have hlt : i.toNat < 4096 := hi
      have hk : i.toNat / 4096 = 0 := by omega
      rw [hget i hi, hk, nthPage_start,
        show selfReadingFlags.word &&& ~~~pfBits = 0x1000 by decide, (or_bit12 _).mpr hb,
        (cookedFlags_word _ (by decide)).mpr rfl]
      congr 2
      apply BitVec.eq_of_toNat_eq
      rw [and_low_toNat, BitVec.toNat_add]
      omega

/-- Half a gigabyte of memory from the second megabyte on. -/
def lowMemory : PageSource := Pmm.source ⟨base, 0x200000, 0x20000000⟩
  ⟨rfl, by decide, by decide, by decide, by decide⟩

def bootPaging : Paging := ⟨fun _ _ => 0, 0, 0⟩

theorem lowMemory_page (k : ℕ) : (lowMemory.page k).toNat =
    if k < 0x1FE00 then 0xFFFFFFFFC0200000 + 4096 * k else 0 := by
  have hp := Pmm.page_toNat (p := ⟨base, 0x200000, 0x20000000⟩)
    ⟨rfl, by decide, by decide, by decide, by decide⟩ k
  have hb : base.toNat = 0xFFFFFFFFC0000000 := rfl
  have hlo : (0x200000 : Word).toNat = 0x200000 := rfl
  have hhi : (0x20000000 : Word).toNat = 0x20000000 := rfl
  rw [hb, hlo, hhi] at hp
  refine hp.trans ?_
  split_ifs <;> omega

theorem lowMemory_delivers {n : ℕ} (h : n ≤ 0x1FE00) : lowMemory.Delivers n := by
  intro k hk
  have hs := lowMemory_page k
  rw [if_pos (by omega)] at hs
  constructor
  · intro hz
    rw [hz, show (0 : Ptr).toNat = 0 from rfl] at hs
    omega
  · have hb : base.toNat = 0xFFFFFFFFC0000000 := rfl
    rw [hs, hb]
    omega

theorem boot_accepts {vbase pbase : Word} {f : Word} (hr : PageRange vbase pbase 0x1000)
    (hw : ¬ InWindow vbase) :
    lowMemory.Delivers (apilogicPageSet lowMemory (pcxInit lowMemory bootPaging) vbase pbase f
      0x1000).2.pmmTaken ∧
    (apilogicPageSet lowMemory (pcxInit lowMemory bootPaging) vbase pbase f 0x1000).1 = true := by
  have ht := pcxInit_taken (S := lowMemory) bootPaging
  obtain ⟨own, hinv⟩ := pcxInit_inv (S := lowMemory) bootPaging (lowMemory_delivers (by decide))
  rw [hr.pageSet_eq]
  constructor
  · apply lowMemory_delivers
    have := pageSetFrom_taken_le (S := lowMemory) vbase pbase f 1 0 (pcxInit lowMemory bootPaging)
    exact this.trans (by rw [ht]; decide)
  · apply pageSetFrom_accepts hinv hr.virtual_aligned (by decide)
    · intro k hk
      obtain rfl : k = 0 := by
        simp only [BitVec.reduceToNat] at hk
        omega
      rw [nthPage_start]
      exact hw
    · apply lowMemory_delivers
      rw [ht]
      decide

theorem page_round_trip_odd_page :
    apilogicPageGet (apilogicPageSet lowMemory (pcxInit lowMemory bootPaging) 0x400000 0x201000
      selfReadingFlags.word 0x1000).2 (0x400000 + 0x234) =
      ⟨0x201000 + 0x234, selfReadingFlags.word⟩ :=
  have hr : PageRange 0x400000 0x201000 0x1000 :=
    ⟨by decide, by decide, by decide, by decide, Or.inl (by decide)⟩
  (page_round_trip .init (lowMemory_delivers (by decide)) hr (by decide)
    (boot_accepts hr (by decide)).1 (boot_accepts hr (by decide)).2).mpr
    (Or.inr ⟨rfl, rfl, by decide⟩) 0x234 (by decide)

/-- A page entered readable and writable reads back without its access flags. -/
theorem page_round_trip_fails : ¬ ∀ (S : PageSource) (p0 p : Paging) (vbase pbase size : Word)
    (f : PageFlags), PagingReach S p0 p → S.Delivers (p0.pmmTaken + 258) →
    PageRange vbase pbase size → f.Usable →
    S.Delivers (apilogicPageSet S p vbase pbase f.word size).2.pmmTaken →
    (apilogicPageSet S p vbase pbase f.word size).1 = true →
    ∀ i < size, apilogicPageGet (apilogicPageSet S p vbase pbase f.word size).2 (vbase + i) =
      ⟨pbase + i, f.word⟩ := by
  intro h
  let f : PageFlags := ⟨true, true, true, false, false, false, false, false, false⟩
  have hr : PageRange 0x400000 0x200000 0x1000 :=
    ⟨by decide, by decide, by decide, by decide, Or.inl (by decide)⟩
  have h0 : lowMemory.Delivers (bootPaging.pmmTaken + 258) := lowMemory_delivers (by decide)
  obtain ⟨hd, hret⟩ := boot_accepts (f := f.word) hr (by decide)
  obtain ⟨own, hinv⟩ := pcxInit_inv bootPaging h0
  have hset := h _ _ _ _ _ _ f .init h0 hr (by decide) hd hret 0 (by decide)
  rw [apilogicPageGet_pageSet hinv hr (by decide) hd hret (by decide)] at hset
  exact absurd (congrArg PageContent.flags hset) (by decide)

end Pinion64
