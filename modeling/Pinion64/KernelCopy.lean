import Pinion64.KernelSegments

/-! The segments of the kernel image in memory: for which images all PT_LOAD segments are as the file
has them when the loop over the program headers has finished. -/
namespace Pinion64
open Bytes

variable {v : PageView} {o : Obje} {m : Memory 64} {kernelBase : Ptr} {s : Loader} {h : Phdr}
variable {d a x addr : Ptr} {c : BitVec 8} {i j n l fuel : ℕ}

section Copy

theorem within_succ (h : Within d (n + 1) x) : Within d n x ∨ x = d + BitVec.ofNat 64 n := by
  rcases Nat.lt_succ_iff_lt_or_eq.mp h with hlt | he
  · exact Or.inl hlt
  · refine Or.inr ?_
    rw [← he, BitVec.ofNat_toNat, BitVec.setWidth_eq]
    ring

/-- A copy of bytes that the copying does not change. -/
theorem memcpy_inside (hn : n < 2 ^ 64) (hs : ∀ k < n, ¬ Within d n (a + BitVec.ofNat 64 k))
    (hx : Within d n x) : memcpy d a n m x = m (a + (x - d)) := by
  induction n with
  | zero => exact absurd hx (Nat.not_lt_zero _)
  | succ n ih =>
    have hs' : ∀ k < n, ¬ Within d n (a + BitVec.ofNat 64 k) :=
      fun k hk => not_within_of_succ (hs k (by omega))
    rw [memcpy]
    by_cases he : x = d + BitVec.ofNat 64 n
    · have hoffset : d + BitVec.ofNat 64 n - d = BitVec.ofNat 64 n := by ring
      rw [he, Function.update_self, hoffset]
      exact memcpy_outside (not_within_of_succ (hs n (by omega)))
    · rw [Function.update_of_ne he]
      exact ih (by omega) hs' ((within_succ hx).resolve_right he)

theorem memclr_inside (hx : Within d n x) : memclr d n m x = 0 := by
  induction n with
  | zero => exact absurd hx (Nat.not_lt_zero _)
  | succ n ih =>
    rw [memclr]
    by_cases he : x = d + BitVec.ofNat 64 n
    · rw [he, Function.update_self]
    · rw [Function.update_of_ne he]
      exact ih ((within_succ hx).resolve_right he)

end Copy

section Pages

/-- The page of `x` is among those from the `j`-th up to the `n`-th that are entered for a segment. -/
def PageEntered (v : PageView) (addr : Ptr) (j n : ℕ) (x : Ptr) : Prop :=
  ∃ i, j ≤ i ∧ i < n ∧ ¬ v.Refuses (addr + BitVec.ofNat 64 (0x1000 * i)) ∧
    Within (addr + BitVec.ofNat 64 (0x1000 * i)) 0x1000 x

theorem PageEntered.step (h : PageEntered v addr j n x) :
    (¬ v.Refuses (addr + BitVec.ofNat 64 (0x1000 * j)) ∧
      Within (addr + BitVec.ofNat 64 (0x1000 * j)) 0x1000 x) ∨ PageEntered v addr (j + 1) n x := by
  obtain ⟨i, hj, hi, hrest⟩ := h
  rcases Nat.eq_or_lt_of_le hj with rfl | hlt
  · exact Or.inl hrest
  · exact Or.inr ⟨i, hlt, hi, hrest⟩

theorem pcxSetFrame_mem : (s.pcxSetFrame v addr).mem x =
    if ¬ v.Refuses addr ∧ Within addr 0x1000 x then v.page s.pages x else s.mem x := by
  unfold Loader.pcxSetFrame
  by_cases hr : v.Refuses addr
  · simp [hr]
  · simp [hr]

theorem mapPages_untouched (hx : ¬ PageEntered v addr j (j + n) x) :
    (mapPages v addr n j s).mem x = s.mem x := by
  induction n generalizing j s with
  | zero => rfl
  | succ n ih =>
    have hrest : ¬ PageEntered v addr (j + 1) (j + 1 + n) x := by
      rintro ⟨i, hj, hi, hin⟩
      exact hx ⟨i, by omega, by omega, hin⟩
    have hfirst : ¬ (¬ v.Refuses (addr + BitVec.ofNat 64 (0x1000 * j)) ∧
        Within (addr + BitVec.ofNat 64 (0x1000 * j)) 0x1000 x) :=
      fun hc => hx ⟨j, le_rfl, by omega, hc⟩
    rw [mapPages, ih hrest, pcxSetFrame_mem, if_neg hfirst]

/-- With the same byte everywhere in the new pages, it is what is found there. -/
theorem mapPages_entered (hc : ∀ p y, v.page p y = c) (hx : PageEntered v addr j (j + n) x) :
    (mapPages v addr n j s).mem x = c := by
  induction n generalizing j s with
  | zero =>
    obtain ⟨i, hj, hi, -⟩ := hx
    omega
  | succ n ih =>
    rw [mapPages]
    by_cases hrest : PageEntered v addr (j + 1) (j + 1 + n) x
    · exact ih hrest
    · have hfirst := hx.step.resolve_right (by rwa [show j + (n + 1) = j + 1 + n by omega])
      rw [mapPages_untouched hrest, pcxSetFrame_mem, if_pos hfirst, hc]

end Pages

section Segment

variable (v : PageView) (o : Obje) (m : Memory 64) (kernelBase : Ptr)

/-- The address is one of the segment's. -/
def Covers (h : Phdr) (x : Ptr) : Prop := Within (kernelBase + h.pVaddr) h.pMemsz.toNat x

/-- A page is entered for the segment in which the address lies. -/
def Maps (h : Phdr) (x : Ptr) : Prop :=
  PageEntered v (kernelBase + h.pVaddr) 0 ((h.pMemsz.toNat + 0xFFF) / 0x1000) x

/-- What the file has for an address of the segment. -/
def byteAt (h : Phdr) (x : Ptr) : BitVec 8 :=
  if Within (kernelBase + h.pVaddr) h.pFilesz.toNat x then
    m (o.base + h.pOffset + (x - (kernelBase + h.pVaddr)))
  else 0

/-- A segment that is mapped, with its bytes as in the file and zeros behind them. -/
structure Loaded (h : Phdr) (s : Loader) : Prop where
  mapped : s.Writable v (kernelBase + h.pVaddr) h.pMemsz.toNat
  file : ∀ k < h.pFilesz.toNat,
    s.mem (kernelBase + h.pVaddr + BitVec.ofNat 64 k) = m (o.base + h.pOffset + BitVec.ofNat 64 k)
  zero : ∀ k, h.pFilesz.toNat ≤ k → k < h.pMemsz.toNat →
    s.mem (kernelBase + h.pVaddr + BitVec.ofNat 64 k) = 0

variable {v o m kernelBase}

theorem Obje.Holds.within_ofNat (hs : o.Holds a n) {k : ℕ} (hk : k < n) (hn : n < 2 ^ 64) :
    Within o.base o.size.toNat (a + BitVec.ofNat 64 k) :=
  hs.within (within_add a hk (by omega))

theorem Segment.outside (hx : ¬ Covers kernelBase h x) (hs : Segment v o kernelBase h s) :
    (place v o kernelBase h s).mem x = (mapWhole v kernelBase h s).mem x := by
  have hle := BitVec.le_def.mp hs.filesz
  have hlt := h.pMemsz.isLt
  have hcopy : ¬ Within (kernelBase + h.pVaddr) h.pFilesz.toNat x :=
    fun hc => hx (Nat.lt_of_lt_of_le hc hle)
  have hclear : ¬ Within (kernelBase + h.pVaddr + h.pFilesz) (h.pMemsz - h.pFilesz).toNat x := by
    rw [BitVec.toNat_sub_of_le hs.filesz, within_offset (by omega)]
    intro hc
    exact hx (by unfold Covers Within; omega)
  exact (memclr_outside hclear).trans (memcpy_outside hcopy)

/-- A segment that has been placed is as the file has it. -/
theorem Segment.inside (hx : Covers kernelBase h x) (hs : Segment v o kernelBase h s)
    (hk : s.Keeps o m) : (place v o kernelBase h s).mem x = byteAt o m kernelBase h x := by
  have hle := BitVec.le_def.mp hs.filesz
  have hlt := h.pMemsz.isLt
  have hclear : Within (kernelBase + h.pVaddr + h.pFilesz) (h.pMemsz - h.pFilesz).toNat x ↔
      ¬ Within (kernelBase + h.pVaddr) h.pFilesz.toNat x := by
    rw [BitVec.toNat_sub_of_le hs.filesz, within_offset (by omega)]
    unfold Covers Within at *
    omega
  rw [byteAt]
  by_cases hf : Within (kernelBase + h.pVaddr) h.pFilesz.toNat x
  · have hsource : ∀ k < h.pFilesz.toNat, ¬ Within (kernelBase + h.pVaddr) h.pFilesz.toNat
        (o.base + h.pOffset + BitVec.ofNat 64 k) :=
      fun k hk => hs.target.1.not_within (hs.source.within_ofNat hk (by omega))
    have hbyte : o.base + h.pOffset + (x - (kernelBase + h.pVaddr)) =
        o.base + h.pOffset + BitVec.ofNat 64 (x - (kernelBase + h.pVaddr)).toNat := by
      rw [BitVec.ofNat_toNat, BitVec.setWidth_eq]
    rw [if_pos hf]
    refine (memclr_outside fun hc => hclear.mp hc hf).trans ?_
    rw [memcpy_inside (by omega) hsource hf, hbyte]
    exact hs.keeps_mapped hk _ (hs.source.within_ofNat hf (by omega))
  · rw [if_neg hf]
    exact memclr_inside (hclear.mpr hf)

theorem Loader.Writable.mono {s' : Loader} (hs : ∀ f ∈ s.frames, f ∈ s'.frames)
    (h : s.Writable v a n) : s'.Writable v a n := by
  refine fun k hk => (h k hk).imp id fun ⟨hc, f, hf, hx⟩ => ?_
  exact ⟨hc, f, hs f hf, hx⟩

/-- All bytes of a segment are mapped. -/
theorem Segment.writable (hs : Segment v o kernelBase h s) :
    (mapWhole v kernelBase h s).Writable v (kernelBase + h.pVaddr) h.pMemsz.toNat := by
  intro k hk
  by_cases hf : k < h.pFilesz.toNat
  · exact hs.target.2 k hf
  · have hrest := hs.zeros.2 (k - h.pFilesz.toNat) (by
      rw [BitVec.toNat_sub_of_le hs.filesz]
      omega)
    have hoffset : kernelBase + h.pVaddr + h.pFilesz + BitVec.ofNat 64 (k - h.pFilesz.toNat) =
        kernelBase + h.pVaddr + BitVec.ofNat 64 k := by
      have hsum : BitVec.ofNat 64 k = h.pFilesz + BitVec.ofNat 64 (k - h.pFilesz.toNat) := by
        rw [← Nat.add_sub_cancel' (Nat.le_of_not_lt hf), BitVec.ofNat_add, BitVec.ofNat_toNat,
          BitVec.setWidth_eq, Nat.add_sub_cancel_left]
      rw [hsum, BitVec.add_assoc]
    rwa [hoffset] at hrest

end Segment

section Contents

variable {v' : PageView} {s' : Loader}

theorem refuses_congr (hl : v'.large = v.large) : v'.Refuses a ↔ v.Refuses a := by
  rw [PageView.Refuses, PageView.Refuses, hl]

/-- What is found in new pages does not decide where they are entered. -/
theorem mapPages_frames_congr (hl : v'.large = v.large) (hs : s'.frames = s.frames) :
    (mapPages v' addr n j s').frames = (mapPages v addr n j s).frames := by
  induction n generalizing j s s' with
  | zero => exact hs
  | succ n ih =>
    refine ih ?_
    unfold Loader.pcxSetFrame
    by_cases hr : v.Refuses (addr + BitVec.ofNat 64 (0x1000 * j))
    · simp only [if_pos hr, if_pos ((refuses_congr hl).mpr hr), hs]
    · simp only [if_neg hr, if_neg fun hc => hr ((refuses_congr hl).mp hc), hs]

theorem placed_frames_congr (hl : v'.large = v.large) :
    (placed v' o m kernelBase i).frames = (placed v o m kernelBase i).frames := by
  induction i with
  | zero => rfl
  | succ i ih =>
    by_cases hs : IsSegment o m i
    · rw [placed_succ hs, placed_succ hs]
      exact mapPages_frames_congr hl ih
    · rw [placed_skip hs, placed_skip hs, ih]

theorem Loader.Writable.congr (h : s.Writable v a n) (hp : v'.spare = v.spare)
    (hs : s'.frames = s.frames) : s'.Writable v' a n := by
  intro k hk
  rw [Loader.Mapped, hp, hs]
  exact h k hk

theorem Segment.congr (hseg : Segment v o kernelBase h s) (hl : v'.large = v.large)
    (hp : v'.spare = v.spare) (hs : s'.frames = s.frames) : Segment v' o kernelBase h s' := by
  have hframes : (mapWhole v' kernelBase h s').frames = (mapWhole v kernelBase h s).frames :=
    mapPages_frames_congr hl hs
  refine ⟨hseg.size, fun i hi hm => ?_, hseg.source, ⟨hseg.target.1, hseg.target.2.congr hp hframes⟩,
    hseg.filesz, hseg.zeros.1, hseg.zeros.2.congr hp hframes⟩
  rw [refuses_congr hl]
  exact hseg.mapped i hi hm

/-- Nor whether the headers fit. -/
theorem HeadersFit.congr (hfit : HeadersFit v o m kernelBase) (hl : v'.large = v.large)
    (hp : v'.spare = v.spare) : HeadersFit v' o m kernelBase where
  phnum := hfit.phnum
  table := hfit.table
  header i hi := by
    obtain ⟨htype, hsegment⟩ := hfit.header i hi
    refine ⟨htype, fun hs => ?_⟩
    obtain ⟨h8, h32, hseg⟩ := hsegment hs
    exact ⟨h8, h32, hseg.congr hl hp (placed_frames_congr hl)⟩

end Contents

section Headers

variable (v : PageView) (o : Obje) (m : Memory 64) (kernelBase : Ptr)

/-- The program header of an index. -/
def phdrOf (i : ℕ) : Phdr := Phdr.read m (headerAt o m i)

/-- The segment of a header has a byte or a new page at the address. -/
def Touches (i : ℕ) (x : Ptr) : Prop :=
  IsSegment o m i ∧ (Covers kernelBase (phdrOf o m i) x ∨ Maps v kernelBase (phdrOf o m i) x)

/-- No later header touches the address. -/
def LastTouch (j : ℕ) (x : Ptr) : Prop :=
  Touches v o m kernelBase j x ∧ ∀ l, j < l → l < headers o m → ¬ Touches v o m kernelBase l x

/-- For each byte of a PT_LOAD segment, the last segment that touches it has it too. -/
def Intact : Prop :=
  ∀ i < headers o m, (phdrOf o m i).pType = 1 → ∀ x, Covers kernelBase (phdrOf o m i) x →
    ∀ j < headers o m, LastTouch v o m kernelBase j x → Covers kernelBase (phdrOf o m j) x ∧
      byteAt o m kernelBase (phdrOf o m j) x = byteAt o m kernelBase (phdrOf o m i) x

/-- The loop over the program headers comes to its end, with all PT_LOAD segments in memory. -/
def LoadsExactly : Prop :=
  ∃ n dynamic s, (∀ fuel, n ≤ fuel →
    loadHeaders v o kernelBase fuel 0 0 ⟨m, 0, [], [], []⟩ = some (dynamic, s)) ∧
      ∀ i < headers o m, (phdrOf o m i).pType = 1 → Loaded v o m kernelBase (phdrOf o m i) s

variable {v o m kernelBase}

section Placed

variable (hfit : ∀ l < n, HeaderFits v o m kernelBase l)
include hfit

theorem placed_untouched (hi : i ≤ n)
    (hx : ∀ l, i ≤ l → l < n → ¬ Touches v o m kernelBase l x) :
    (placed v o m kernelBase n).mem x = (placed v o m kernelBase i).mem x := by
  induction n, hi using Nat.le_induction with
  | base => rfl
  | succ n hi ih =>
    have hrest := ih (fun l hl => hfit l (by omega)) fun l hl hn => hx l hl (by omega)
    by_cases hs : IsSegment o m n
    · have hno := hx n hi (Nat.lt_succ_self n)
      have hcovers : ¬ Covers kernelBase (phdrOf o m n) x := fun hc => hno ⟨hs, Or.inl hc⟩
      have hmaps : ¬ Maps v kernelBase (phdrOf o m n) x := fun hc => hno ⟨hs, Or.inr hc⟩
      have hseg := ((hfit n (Nat.lt_succ_self n)).segment hs).segment
      rw [placed_succ hs]
      refine (hseg.outside hcovers).trans ((mapPages_untouched ?_).trans hrest)
      rwa [Nat.zero_add]
    · rw [placed_skip hs]
      exact hrest

/-- A byte is left as the last segment that has it. -/
theorem placed_covered (hj : j < n) (hs : IsSegment o m j) (hx : Covers kernelBase (phdrOf o m j) x)
    (hlast : ∀ l, j < l → l < n → ¬ Touches v o m kernelBase l x) :
    (placed v o m kernelBase n).mem x = byteAt o m kernelBase (phdrOf o m j) x := by
  have hk : (placed v o m kernelBase j).Keeps o m := placed_keeps fun l hl => hfit l (by omega)
  rw [placed_untouched hfit (Nat.succ_le_of_lt hj) fun l hl => hlast l hl, placed_succ hs]
  exact ((hfit j hj).segment hs).segment.inside hx hk

/-- A byte at which only a page is entered is the one that is found there. -/
theorem placed_entered (hc : ∀ p y, v.page p y = c) (hj : j < n) (hs : IsSegment o m j)
    (hx : ¬ Covers kernelBase (phdrOf o m j) x) (hm : Maps v kernelBase (phdrOf o m j) x)
    (hlast : ∀ l, j < l → l < n → ¬ Touches v o m kernelBase l x) :
    (placed v o m kernelBase n).mem x = c := by
  rw [placed_untouched hfit (Nat.succ_le_of_lt hj) fun l hl => hlast l hl, placed_succ hs]
  refine (((hfit j hj).segment hs).segment.outside hx).trans (mapPages_entered hc ?_)
  rwa [Nat.zero_add]

end Placed

open Classical in
theorem exists_lastTouch (hi : i < headers o m) (hx : Touches v o m kernelBase i x) :
    ∃ j < headers o m, LastTouch v o m kernelBase j x := by
  have hle : i ≤ headers o m - 1 := by omega
  have hspec := Nat.findGreatest_spec (P := fun l => Touches v o m kernelBase l x) hle hx
  have hbound := Nat.findGreatest_le (P := fun l => Touches v o m kernelBase l x) (headers o m - 1)
  refine ⟨_, ?_, hspec, fun l hl hn => Nat.findGreatest_is_greatest hl ?_⟩
  · omega
  · omega

/-- A segment is in memory when its bytes are, and their pages stay mapped. -/
theorem loaded_iff (hfit : HeadersFit v o m kernelBase) (hi : i < headers o m)
    (hs : IsSegment o m i) :
    Loaded v o m kernelBase (phdrOf o m i) (placed v o m kernelBase (headers o m)) ↔
      ∀ x, Covers kernelBase (phdrOf o m i) x → (placed v o m kernelBase (headers o m)).mem x =
        byteAt o m kernelBase (phdrOf o m i) x := by
  have hseg := ((hfit.header i hi).segment hs).segment
  have hlt := (phdrOf o m i).pMemsz.isLt
  have hle : (phdrOf o m i).pFilesz.toNat ≤ (phdrOf o m i).pMemsz.toNat := hseg.filesz
  have hoffset : ∀ k, kernelBase + (phdrOf o m i).pVaddr + BitVec.ofNat 64 k -
      (kernelBase + (phdrOf o m i).pVaddr) = BitVec.ofNat 64 k := fun k => by ring
  have hwithin : ∀ k l, k < 2 ^ 64 → (Within (kernelBase + (phdrOf o m i).pVaddr) l
      (kernelBase + (phdrOf o m i).pVaddr + BitVec.ofNat 64 k) ↔ k < l) := by
    intro k l hk
    rw [Within, hoffset, BitVec.toNat_ofNat, Nat.mod_eq_of_lt hk]
  constructor
  · intro hl x hx
    obtain ⟨k, hk⟩ : ∃ k, (x - (kernelBase + (phdrOf o m i).pVaddr)).toNat = k := ⟨_, rfl⟩
    have hkm : k < (phdrOf o m i).pMemsz.toNat := hk ▸ hx
    have hxk : kernelBase + (phdrOf o m i).pVaddr + BitVec.ofNat 64 k = x := by
      rw [← hk, BitVec.ofNat_toNat, BitVec.setWidth_eq]
      ring
    rw [← hxk, byteAt, hoffset]
    by_cases hf : k < (phdrOf o m i).pFilesz.toNat
    · rw [if_pos ((hwithin k _ (by omega)).mpr hf), hl.file k hf]
    · rw [if_neg fun hc => hf ((hwithin k _ (by omega)).mp hc), hl.zero k (by omega) hkm]
  · intro hx
    refine ⟨?_, fun k hk => ?_, fun k hk hkm => ?_⟩
    · refine hseg.writable.mono fun f hf => placed_frames ?_ (Nat.succ_le_of_lt hi)
      rw [placed_succ hs]
      exact hf
    · rw [hx _ ((hwithin k _ (by omega)).mpr (by omega)), byteAt,
        if_pos ((hwithin k _ (by omega)).mpr hk), hoffset]
    · rw [hx _ ((hwithin k _ (by omega)).mpr hkm), byteAt,
        if_neg fun hc => absurd ((hwithin k _ (by omega)).mp hc) (by omega)]

theorem other_byte (b : BitVec 8) : ∃ c, c ≠ b := by
  by_cases h : b = 0
  · exact ⟨1, by rw [h]; decide⟩
  · exact ⟨0, Ne.symm h⟩

theorem loadsExactly_iff : LoadsExactly v o m kernelBase ↔ HeadersFit v o m kernelBase ∧
    ∀ i < headers o m, (phdrOf o m i).pType = 1 → ∀ x, Covers kernelBase (phdrOf o m i) x →
      (placed v o m kernelBase (headers o m)).mem x = byteAt o m kernelBase (phdrOf o m i) x := by
  constructor
  · rintro ⟨n, dynamic, s, hrun, hloaded⟩
    have hlast := hrun (n + (2 ^ 52 + headers o m + 1)) (by omega)
    have hfit : HeadersFit v o m kernelBase := by
      by_contra hno
      rw [(loadHeaders_spec (by omega)).2 hno] at hlast
      cases hlast
    rw [(loadHeaders_spec (by omega)).1 hfit] at hlast
    obtain rfl := congrArg Prod.snd (Option.some.inj hlast)
    exact ⟨hfit, fun i hi ht => (loaded_iff hfit hi (Or.inl ht)).mp (hloaded i hi ht)⟩
  · rintro ⟨hfit, hbytes⟩
    refine ⟨2 ^ 52 + headers o m + 1, _, _, fun fuel hf => (loadHeaders_spec (by omega)).1 hfit,
      fun i hi ht => (loaded_iff hfit hi (Or.inl ht)).mpr (hbytes i hi ht)⟩

end Headers

/-- The PT_LOAD segments are in memory, whatever is found in the pages that they are given, if and only
if the headers fit and no later segment spoils them. -/
theorem segments_loaded_exactly (v : PageView) (o : Obje) (m : Memory 64) (kernelBase : Ptr) :
    (∀ page, LoadsExactly { v with page } o m kernelBase) ↔
      HeadersFit v o m kernelBase ∧ Intact v o m kernelBase := by
  constructor
  · intro hall
    have hpages := fun page => loadsExactly_iff.mp (hall page)
    refine ⟨(hpages v.page).1.congr rfl rfl, fun i hi ht x hx j hj hlast => ?_⟩
    have hcovers : Covers kernelBase (phdrOf o m j) x := by
      by_contra hno
      have hmaps := hlast.1.2.resolve_left hno
      -- found in the page, another byte than the file's stays there
      obtain ⟨c, hc⟩ := other_byte (byteAt o m kernelBase (phdrOf o m i) x)
      obtain ⟨hfit, hbytes⟩ := hpages fun _ _ => c
      have hfound := placed_entered hfit.header (fun _ _ => rfl) hj hlast.1.1 hno hmaps hlast.2
      exact hc (hfound.symm.trans (hbytes i hi ht x hx))
    obtain ⟨hfit, hbytes⟩ := hpages v.page
    exact ⟨hcovers, (placed_covered hfit.header hj hlast.1.1 hcovers hlast.2).symm.trans
      (hbytes i hi ht x hx)⟩
  · rintro ⟨hfit, hu⟩ page
    have hfit' : HeadersFit { v with page } o m kernelBase := hfit.congr rfl rfl
    refine loadsExactly_iff.mpr ⟨hfit', fun i hi ht x hx => ?_⟩
    obtain ⟨j, hj, hlast⟩ := exists_lastTouch hi ⟨Or.inl ht, Or.inl hx⟩
    obtain ⟨hcovers, hsame⟩ := hu i hi ht x hx j hj hlast
    exact (placed_covered hfit'.header hj hlast.1.1 hcovers hlast.2).trans hsame

section Sample

def sampleView : PageView := ⟨fun _ _ => 0xCC, fun _ => false, fun _ => false⟩

/-- The object that load_kernel finds. -/
def sampleObje : Obje := (sampleObjl ["kernel64"]).entry 0

/-- An image with a PT_LOAD segment that does not begin at a page, and a PT_DYNAMIC segment in it. -/
def unalignedKernel : Memory 64 := fun x =>
  ([0x7F, 0x45, 0x4C, 0x46, 0, 0, 0, 0, 0, 0, 0, 0, 0, 0, 0, 0, 0, 0, 0, 0, 0, 0, 0, 0, 0, 0, 0, 0,
    0, 0, 0, 0, 0x40, 0, 0, 0, 0, 0, 0, 0, 0, 0, 0, 0, 0, 0, 0, 0, 0, 0, 0, 0, 0, 0, 0x38, 0, 2, 0,
    0, 0, 0, 0, 0, 0, 1, 0, 0, 0, 0, 0, 0, 0, 0xB0, 0, 0, 0, 0, 0, 0, 0, 0x10, 0x20, 0, 0, 0, 0, 0,
    0, 0, 0, 0, 0, 0, 0, 0, 0, 0x10, 0, 0, 0, 0, 0, 0, 0, 0x10, 0, 0, 0, 0, 0, 0, 0, 0, 0, 0, 0, 0,
    0, 0, 0, 2, 0, 0, 0, 0, 0, 0, 0, 0xB0, 0, 0, 0, 0, 0, 0, 0, 0x10, 0x20, 0, 0, 0, 0, 0, 0, 0, 0,
    0, 0, 0, 0, 0, 0, 0x10, 0, 0, 0, 0, 0, 0, 0, 0x10, 0, 0, 0, 0, 0, 0, 0, 0, 0, 0, 0, 0, 0, 0, 0,
    0, 0, 0, 0, 0, 0, 0, 0, 0, 0, 0, 0, 0, 0, 0, 0] :
    List (BitVec 8)).getD (x - 0xFFFFFFFFC1000000).toNat 0

/-- No page is entered for its segment, which is not in memory in the end. -/
theorem unaligned_not_loaded :
    headers sampleObje unalignedKernel = 2 ∧
      phdrOf sampleObje unalignedKernel 0 = ⟨1, 0xB0, 0x2010, 0x10, 0x10⟩ ∧
      phdrOf sampleObje unalignedKernel 1 = ⟨2, 0xB0, 0x2010, 0x10, 0x10⟩ ∧
      ¬ LoadsExactly sampleView sampleObje unalignedKernel 0xFFFFFFFF00000000 := by
  have hcount : headers sampleObje unalignedKernel = 2 := by decide +kernel
  have hload : phdrOf sampleObje unalignedKernel 0 = ⟨1, 0xB0, 0x2010, 0x10, 0x10⟩ := by
    decide +kernel
  refine ⟨hcount, hload, by decide +kernel, fun h => ?_⟩
  obtain ⟨hfit, -⟩ := loadsExactly_iff.mp h
  have hsegment := ((hfit.header 0 (by omega)).segment (Or.inl (congrArg Phdr.pType hload))).segment
  rw [← phdrOf, hload] at hsegment
  rcases hsegment.target.2 0 (by decide) with hspare | ⟨-, f, hf, -⟩
  · exact absurd hspare (by decide)
  · rcases mem_mapPages_frames.mp hf with hnil | ⟨i, -, hi, hr, -⟩
    · exact List.not_mem_nil hnil
    · obtain rfl : i = 0 := by
        change i < 0 + (0x10 + 0xFFF) / 0x1000 at hi
        omega
      exact hr (Or.inl (by decide))

end Sample

end Pinion64
