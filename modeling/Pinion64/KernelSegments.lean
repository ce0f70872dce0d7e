import Pinion64.LoadKernel

/-! The segments of the kernel image: for which program headers the loader stays within the object in
reading them, and out of it in placing them. -/
namespace Pinion64
open Bytes

section Guard

variable {α : Type} {c : Prop} [Decidable c] {x : Option α}

@[simp] theorem guard_then : ((guard c : Option Unit).bind fun _ => x) = if c then x else none := by
  by_cases h : c
  · simp [guard, h]
  · simp [guard, h]

end Guard

variable {v : PageView} {o : Obje} {m : Memory 64} {s : Loader}

section Object

variable {a x : Ptr} {n : ℕ}

/-- The object is as it was at first. -/
def Loader.Keeps (o : Obje) (m : Memory 64) (s : Loader) : Prop :=
  ∀ x, Within o.base o.size.toNat x → s.mem x = m x

theorem Obje.Holds.within (h : o.Holds a n) (hx : Within a n x) : Within o.base o.size.toNat x := by
  have hsize := o.size.isLt
  have hx' : x - o.base = (x - a) + (a - o.base) := by ring
  unfold Within at hx ⊢
  rcases h with rfl | h
  · exact absurd hx (Nat.not_lt_zero _)
  · rw [hx', BitVec.toNat_add, Nat.mod_eq_of_lt (by omega)]
    omega

theorem Obje.Spares.not_within (h : o.Spares a n) (hx : Within o.base o.size.toNat x) :
    ¬ Within a n x := by
  rcases h with rfl | h
  · exact Nat.not_lt_zero _
  · exact h.symm.not_within hx

theorem Loader.Keeps.read (hk : s.Keeps o m) (h : o.Holds a n) (hn : n ≤ 2 ^ 64) :
    readLE s.mem a n = readLE m a n :=
  readLE_eq_of_within hn fun _ hx => hk _ (h.within hx)

theorem Obje.Holds.field {d : Ptr} {k : ℕ} (h : o.Holds a n) (hd : d.toNat + k ≤ n) (hn : n ≤ 2 ^ 32) :
    o.Holds (a + d) k := by
  rcases h with rfl | h
  · exact Or.inl (by omega)
  · refine Or.inr ?_
    have ha : a + d - o.base = (a - o.base) + d := by ring
    have hsize := o.size.isLt
    rw [ha, BitVec.toNat_add, Nat.mod_eq_of_lt (by omega)]
    omega

theorem Loader.Keeps.pType (hk : s.Keeps o m) (h : o.Holds a 4) :
    (Phdr.read s.mem a).pType = (Phdr.read m a).pType := hk.read h (by decide)

/-- A program header that lies in the object. -/
theorem Loader.Keeps.phdr (hk : s.Keeps o m) (h4 : o.Holds a 4) (h8 : o.Holds (a + 8) 16)
    (h32 : o.Holds (a + 32) 16) : Phdr.read s.mem a = Phdr.read m a := by
  have h16 : o.Holds (a + 8 + 8) 8 := h8.field (by decide) (by decide)
  have h40 : o.Holds (a + 32 + 8) 8 := h32.field (by decide) (by decide)
  have h8' : o.Holds (a + 8 + 0) 8 := h8.field (by decide) (by decide)
  have h32' : o.Holds (a + 32 + 0) 8 := h32.field (by decide) (by decide)
  have e16 : a + 8 + 8 = a + 16 := by ring
  have e40 : a + 32 + 8 = a + 40 := by ring
  rw [e16] at h16
  rw [e40] at h40
  rw [add_zero] at h8' h32'
  unfold Phdr.read read64 read32
  rw [hk.read h4 (by decide), hk.read h8' (by decide), hk.read h16 (by decide),
    hk.read h32' (by decide), hk.read h40 (by decide)]

end Object

section Copy

variable {d a x : Ptr} {n : ℕ}

theorem ne_of_not_within (h : ¬ Within d (n + 1) x) : x ≠ d + BitVec.ofNat 64 n := by
  rintro rfl
  refine h ?_
  have he : d + BitVec.ofNat 64 n - d = BitVec.ofNat 64 n := by ring
  rw [Within, he, BitVec.toNat_ofNat]
  exact Nat.lt_succ_of_le (Nat.mod_le _ _)

theorem not_within_of_succ (h : ¬ Within d (n + 1) x) : ¬ Within d n x :=
  fun hx => h (Nat.lt_succ_of_lt hx)

theorem memcpy_outside (h : ¬ Within d n x) : memcpy d a n m x = m x := by
  induction n with
  | zero => rfl
  | succ n ih =>
    rw [memcpy, Function.update_of_ne (ne_of_not_within h), ih (not_within_of_succ h)]

theorem memclr_outside (h : ¬ Within d n x) : memclr d n m x = m x := by
  induction n with
  | zero => rfl
  | succ n ih =>
    rw [memclr, Function.update_of_ne (ne_of_not_within h), ih (not_within_of_succ h)]

theorem Loader.Keeps.pcxSetFrame (hk : s.Keeps o m) (h : v.Refuses a ∨ o.Spares a 0x1000) :
    (s.pcxSetFrame v a).Keeps o m := by
  intro x hx
  rw [← hk x hx]
  unfold Loader.pcxSetFrame
  by_cases hr : v.Refuses a
  · exact congrFun (if_pos hr) x
  · dsimp only
    rw [if_neg hr, if_neg ((h.resolve_left hr).not_within hx)]

end Copy

section Pages

variable (v : PageView) (o : Obje) (m : Memory 64) (kernelBase : Ptr)

/-- The pages of a segment from the `j`-th on, `n` of them. -/
def mapPages (addr : Ptr) : ℕ → ℕ → Loader → Loader
  | 0, _, s => s
  | n+1, j, s => mapPages addr n (j + 1) (s.pcxSetFrame v (addr + BitVec.ofNat 64 (0x1000 * j)))

/-- From the `j`-th page on, those that are mapped are not the object's. -/
def MapsFrom (addr : Ptr) (memsz j : ℕ) : Prop :=
  ∀ i, j ≤ i → 0x1000 * i < memsz → v.Refuses (addr + BitVec.ofNat 64 (0x1000 * i)) ∨
    o.Spares (addr + BitVec.ofNat 64 (0x1000 * i)) 0x1000

variable {v o m kernelBase} {addr phdr offset : Ptr} {memsz j n fuel : ℕ} {h : Phdr}

theorem MapsFrom.next (hm : MapsFrom v o addr memsz j) : MapsFrom v o addr memsz (j + 1) :=
  fun i hi => hm i (by omega)

theorem Loader.Keeps.mapPages (hk : s.Keeps o m) (hm : MapsFrom v o addr memsz j)
    (hn : 0x1000 * (j + n) < memsz + 0x1000) : (mapPages v addr n j s).Keeps o m := by
  induction n generalizing j s with
  | zero => exact hk
  | succ n ih =>
    exact ih (hk.pcxSetFrame (hm j le_rfl (by omega))) hm.next (by omega)

/-- Where the pages of a segment are entered. -/
theorem mem_mapPages_frames {f : Ptr} : f ∈ (mapPages v addr n j s).frames ↔ f ∈ s.frames ∨
    ∃ i, j ≤ i ∧ i < j + n ∧ ¬ v.Refuses (addr + BitVec.ofNat 64 (0x1000 * i)) ∧
      f = addr + BitVec.ofNat 64 (0x1000 * i) := by
  induction n generalizing j s with
  | zero =>
    refine ⟨Or.inl, fun h => h.elim id ?_⟩
    rintro ⟨i, hj, hi, -⟩
    omega
  | succ n ih =>
    have hframes : f ∈ (s.pcxSetFrame v (addr + BitVec.ofNat 64 (0x1000 * j))).frames ↔
        f ∈ s.frames ∨ ¬ v.Refuses (addr + BitVec.ofNat 64 (0x1000 * j)) ∧
          f = addr + BitVec.ofNat 64 (0x1000 * j) := by
      unfold Loader.pcxSetFrame
      split_ifs with hr
      · simp [hr]
      · simp [hr, or_comm]
    rw [mapPages, ih, hframes, or_assoc]
    refine or_congr_right ⟨?_, ?_⟩
    · rintro (⟨hr, hf⟩ | ⟨i, hj, hi, hrest⟩)
      · exact ⟨j, le_rfl, by omega, hr, hf⟩
      · exact ⟨i, by omega, by omega, hrest⟩
    · rintro ⟨i, hj, hi, hr, hf⟩
      rcases Nat.eq_or_lt_of_le hj with rfl | hlt
      · exact Or.inl ⟨hr, hf⟩
      · exact Or.inr ⟨i, hlt, by omega, hr, hf⟩

theorem Loader.Writable.of_frame {f a : Ptr} (hf : f ∈ s.frames)
    (hc : ∀ k < n, Canonical (a + BitVec.ofNat 64 k)) (h : (a - f).toNat + n ≤ 0x1000) :
    s.Writable v a n :=
  fun k hk => Or.inr ⟨hc k hk, f, hf, within_part h hk⟩

variable (h4 : o.Holds phdr 4) (h8 : o.Holds (phdr + 8) 16) (h32 : o.Holds (phdr + 32) 16)
include h4 h8 h32

/-- One turn of the loop over the pages. -/
theorem mapSegment_succ (hk : s.Keeps o m) (hh : Phdr.read m phdr = h) :
    mapSegment v o kernelBase phdr (fuel + 1) offset s = if offset < h.pMemsz then
      if v.Refuses (kernelBase + h.pVaddr + offset) ∨ o.Spares (kernelBase + h.pVaddr + offset) 0x1000
      then mapSegment v o kernelBase phdr fuel (offset + 0x1000)
        (s.pcxSetFrame v (kernelBase + h.pVaddr + offset))
      else none
    else some s := by
  rw [mapSegment, hk.phdr h4 h8 h32, hh]
  simp only [Option.bind_eq_bind, guard_then]

/-- Behind the last page the offset wraps around. -/
theorem mapSegment_endless (hk : s.Keeps o m) (hh : Phdr.read m phdr = h)
    (hbig : 2 ^ 64 - 0x1000 < h.pMemsz.toNat) (ho : offset.toNat % 0x1000 = 0) :
    mapSegment v o kernelBase phdr fuel offset s = none := by
  induction fuel generalizing offset s with
  | zero => rfl
  | succ fuel ih =>
    have hlt := offset.isLt
    rw [mapSegment_succ h4 h8 h32 hk hh, if_pos (BitVec.lt_def.mpr (by omega))]
    split_ifs with hg
    · refine ih (hk.pcxSetFrame hg) ?_
      rw [BitVec.toNat_add]
      change (offset.toNat + 0x1000) % 2 ^ 64 % 0x1000 = 0
      omega
    · rfl

open Classical in
theorem mapSegment_from (hk : s.Keeps o m) (hh : Phdr.read m phdr = h)
    (hsize : h.pMemsz.toNat ≤ 2 ^ 64 - 0x1000) (hn : (h.pMemsz.toNat + 0xFFF) / 0x1000 = j + n)
    (hf : n < fuel) : mapSegment v o kernelBase phdr fuel (BitVec.ofNat 64 (0x1000 * j)) s =
      if MapsFrom v o (kernelBase + h.pVaddr) h.pMemsz.toNat j then
        some (mapPages v (kernelBase + h.pVaddr) n j s)
      else none := by
  obtain ⟨fuel, rfl⟩ : ∃ k, fuel = k + 1 := ⟨fuel - 1, by omega⟩
  have hj : (BitVec.ofNat 64 (0x1000 * j)).toNat = 0x1000 * j := by
    rw [BitVec.toNat_ofNat, Nat.mod_eq_of_lt (by omega)]
  rw [mapSegment_succ h4 h8 h32 hk hh]
  induction n generalizing j s fuel with
  | zero =>
    have hlast : MapsFrom v o (kernelBase + h.pVaddr) h.pMemsz.toNat j := fun i hi hlt => by omega
    rw [if_neg (by rw [BitVec.lt_def]; omega), if_pos hlast]
    rfl
  | succ n ih =>
    obtain ⟨fuel, rfl⟩ : ∃ k, fuel = k + 1 := ⟨fuel - 1, by omega⟩
    have hnext : BitVec.ofNat 64 (0x1000 * j) + 0x1000 = BitVec.ofNat 64 (0x1000 * (j + 1)) := by
      rw [Nat.mul_add, BitVec.ofNat_add]
      rfl
    rw [if_pos (by rw [BitVec.lt_def]; omega), hnext]
    by_cases hg : v.Refuses (kernelBase + h.pVaddr + BitVec.ofNat 64 (0x1000 * j)) ∨
      o.Spares (kernelBase + h.pVaddr + BitVec.ofNat 64 (0x1000 * j)) 0x1000
    · have hiff : MapsFrom v o (kernelBase + h.pVaddr) h.pMemsz.toNat j ↔
          MapsFrom v o (kernelBase + h.pVaddr) h.pMemsz.toNat (j + 1) := by
        refine ⟨MapsFrom.next, fun hm i hi hlt => ?_⟩
        rcases Nat.eq_or_lt_of_le hi with rfl | hi'
        · exact hg
        · exact hm i hi' hlt
      rw [if_pos hg, mapSegment_succ h4 h8 h32 (hk.pcxSetFrame hg) hh, ih (hk.pcxSetFrame hg) (by omega)
        fuel (by omega)]
      · simp only [hiff, mapPages]
      · rw [BitVec.toNat_ofNat, Nat.mod_eq_of_lt (by omega)]
    · rw [if_neg hg, if_neg fun hm => hg (hm j le_rfl (by omega))]

/-- The loop over the pages ends with all of them mapped, unless its offset wraps around or a page
would come to lie over the object. -/
theorem mapSegment_spec (hk : s.Keeps o m) (hh : Phdr.read m phdr = h) (hf : 2 ^ 52 < fuel) :
    (h.pMemsz.toNat ≤ 2 ^ 64 - 0x1000 ∧ MapsFrom v o (kernelBase + h.pVaddr) h.pMemsz.toNat 0 →
      mapSegment v o kernelBase phdr fuel 0 s =
        some (mapPages v (kernelBase + h.pVaddr) ((h.pMemsz.toNat + 0xFFF) / 0x1000) 0 s)) ∧
    (¬ (h.pMemsz.toNat ≤ 2 ^ 64 - 0x1000 ∧ MapsFrom v o (kernelBase + h.pVaddr) h.pMemsz.toNat 0) →
      mapSegment v o kernelBase phdr fuel 0 s = none) := by
  have hlt := h.pMemsz.isLt
  by_cases hsize : h.pMemsz.toNat ≤ 2 ^ 64 - 0x1000
  · have hpages : (h.pMemsz.toNat + 0xFFF) / 0x1000 < fuel := by omega
    constructor
    · intro hm
      exact (mapSegment_from h4 h8 h32 hk hh hsize (Nat.zero_add _).symm hpages).trans (if_pos hm.2)
    · intro hm
      exact (mapSegment_from h4 h8 h32 hk hh hsize (Nat.zero_add _).symm hpages).trans
        (if_neg fun hc => hm ⟨hsize, hc⟩)
  · refine ⟨fun hm => absurd hm.1 hsize, fun _ => ?_⟩
    exact mapSegment_endless h4 h8 h32 hk hh (by omega) rfl

end Pages

section Segment

variable (v : PageView) (o : Obje) (m : Memory 64) (kernelBase : Ptr)

/-- The machine with the pages of the segment. -/
def mapWhole (h : Phdr) (s : Loader) : Loader :=
  mapPages v (kernelBase + h.pVaddr) ((h.pMemsz.toNat + 0xFFF) / 0x1000) 0 s

/-- A segment that is read within the object, and placed outside it where pages are mapped. -/
structure Segment (h : Phdr) (s : Loader) : Prop where
  size : h.pMemsz.toNat ≤ 2 ^ 64 - 0x1000
  mapped : MapsFrom v o (kernelBase + h.pVaddr) h.pMemsz.toNat 0
  source : o.Holds (o.base + h.pOffset) h.pFilesz.toNat
  target : o.Spares (kernelBase + h.pVaddr) h.pFilesz.toNat ∧
    (mapWhole v kernelBase h s).Writable v (kernelBase + h.pVaddr) h.pFilesz.toNat
  filesz : h.pFilesz ≤ h.pMemsz
  zeros : o.Spares (kernelBase + h.pVaddr + h.pFilesz) (h.pMemsz - h.pFilesz).toNat ∧
    (mapWhole v kernelBase h s).Writable v (kernelBase + h.pVaddr + h.pFilesz)
      (h.pMemsz - h.pFilesz).toNat

/-- The segment with its pages mapped, its bytes copied and the rest cleared. -/
def place (h : Phdr) (s : Loader) : Loader :=
  let s := mapWhole v kernelBase h s
  { s with
    mem := memclr (kernelBase + h.pVaddr + h.pFilesz) (h.pMemsz - h.pFilesz).toNat
      (memcpy (kernelBase + h.pVaddr) (o.base + h.pOffset) h.pFilesz.toNat s.mem)
    loaded := (kernelBase + h.pVaddr, h.pMemsz.toNat) :: s.loaded }

/-- The program header of a segment, and the segment. -/
structure SegmentAt (phdr : Ptr) (s : Loader) : Prop where
  offsets : o.Holds (phdr + 8) 16
  sizes : o.Holds (phdr + 32) 16
  segment : Segment v o kernelBase (Phdr.read m phdr) s

variable {v o m kernelBase} {phdr : Ptr} {fuel : ℕ} {h : Phdr}

theorem Loader.Keeps.copied (hk : s.Keeps o m) {d a : Ptr} {n : ℕ} (h : o.Spares d n) :
    ({ s with mem := memcpy d a n s.mem } : Loader).Keeps o m :=
  fun x hx => (memcpy_outside (h.not_within hx)).trans (hk x hx)

theorem Segment.keeps_mapped (hs : Segment v o kernelBase h s) (hk : s.Keeps o m) :
    (mapWhole v kernelBase h s).Keeps o m :=
  hk.mapPages hs.mapped (by omega)

theorem Segment.keeps (hs : Segment v o kernelBase h s) (hk : s.Keeps o m) :
    (place v o kernelBase h s).Keeps o m := fun x hx =>
  (memclr_outside (hs.zeros.1.not_within hx)).trans (((hs.keeps_mapped hk).copied hs.target.1) x hx)

theorem loadSegment_eq (fuel : ℕ) (phdr : Ptr) (s : Loader) :
    loadSegment v o kernelBase fuel phdr s =
      if o.Holds (phdr + 8) 16 ∧ o.Holds (phdr + 32) 16 then
        (mapSegment v o kernelBase phdr fuel 0 s).bind fun s =>
          if o.Holds (o.base + (Phdr.read s.mem phdr).pOffset) (Phdr.read s.mem phdr).pFilesz.toNat then
            if o.Spares (kernelBase + (Phdr.read s.mem phdr).pVaddr)
                (Phdr.read s.mem phdr).pFilesz.toNat ∧
                s.Writable v (kernelBase + (Phdr.read s.mem phdr).pVaddr)
                  (Phdr.read s.mem phdr).pFilesz.toNat then
              let m := memcpy (kernelBase + (Phdr.read s.mem phdr).pVaddr)
                (o.base + (Phdr.read s.mem phdr).pOffset) (Phdr.read s.mem phdr).pFilesz.toNat s.mem
              let h := Phdr.read m phdr
              if h.pFilesz ≤ h.pMemsz then
                if o.Spares (kernelBase + h.pVaddr + h.pFilesz) (h.pMemsz - h.pFilesz).toNat ∧
                    s.Writable v (kernelBase + h.pVaddr + h.pFilesz)
                      (h.pMemsz - h.pFilesz).toNat then
                  some { s with
                    mem := memclr (kernelBase + h.pVaddr + h.pFilesz) (h.pMemsz - h.pFilesz).toNat m
                    loaded := (kernelBase + h.pVaddr, h.pMemsz.toNat) :: s.loaded }
                else none
              else none
            else none
          else none
      else none := by
  simp only [loadSegment, Option.bind_eq_bind, guard_then]

theorem loadSegment_spec (hk : s.Keeps o m) (h4 : o.Holds phdr 4) (hf : 2 ^ 52 < fuel) :
    (SegmentAt v o m kernelBase phdr s → loadSegment v o kernelBase fuel phdr s =
      some (place v o kernelBase (Phdr.read m phdr) s)) ∧
    (¬ SegmentAt v o m kernelBase phdr s → loadSegment v o kernelBase fuel phdr s = none) := by
  obtain ⟨h, hh⟩ : ∃ h, Phdr.read m phdr = h := ⟨_, rfl⟩
  constructor
  · rintro ⟨h8, h32, hs⟩
    rw [hh] at hs ⊢
    have hkm := hs.keeps_mapped hk
    have hkc := hkm.copied (a := o.base + h.pOffset) hs.target.1
    have hread := hkc.phdr h4 h8 h32
    dsimp only at hread
    rw [loadSegment_eq, if_pos ⟨h8, h32⟩, (mapSegment_spec h4 h8 h32 hk hh hf).1 ⟨hs.size, hs.mapped⟩,
      Option.bind_some, ← mapWhole, hkm.phdr h4 h8 h32, hh, if_pos hs.source, if_pos hs.target]
    dsimp only
    rw [hread, hh, if_pos hs.filesz, if_pos hs.zeros]
    rfl
  · intro hno
    rw [loadSegment_eq]
    split_ifs with hfields
    · obtain ⟨h8, h32⟩ := hfields
      by_cases hm : h.pMemsz.toNat ≤ 2 ^ 64 - 0x1000 ∧
        MapsFrom v o (kernelBase + h.pVaddr) h.pMemsz.toNat 0
      · have hkm : (mapWhole v kernelBase h s).Keeps o m := hk.mapPages hm.2 (by omega)
        rw [(mapSegment_spec h4 h8 h32 hk hh hf).1 hm, Option.bind_some, ← mapWhole,
          hkm.phdr h4 h8 h32, hh]
        split_ifs with hsource htarget
        · have hread := (hkm.copied (a := o.base + h.pOffset) htarget.1).phdr h4 h8 h32
          dsimp only at hread ⊢
          rw [hread, hh]
          split_ifs with hfilesz hzeros
          · exact absurd ⟨h8, h32, hh ▸ ⟨hm.1, hm.2, hsource, htarget, hfilesz, hzeros⟩⟩ hno
          · rfl
          · rfl
        · rfl
        · rfl
      · rw [(mapSegment_spec h4 h8 h32 hk hh hf).2 hm]
        rfl
    · rfl

end Segment

section Headers

variable (v : PageView) (o : Obje) (m : Memory 64) (kernelBase : Ptr)

/-- The address of the program header of an index. -/
def headerAt (i : ℕ) : Ptr := phdrAddr m o.base (BitVec.ofNat 64 i)

/-- The number of program headers. -/
def headers : ℕ := (Ehdr.read m o.base).ePhnum.toNat

/-- The header is of type PT_LOAD or PT_DYNAMIC. -/
def IsSegment (i : ℕ) : Prop :=
  (Phdr.read m (headerAt o m i)).pType = 1 ∨ (Phdr.read m (headerAt o m i)).pType = 2

instance (i : ℕ) : Decidable (IsSegment o m i) := inferInstanceAs (Decidable (_ ∨ _))

/-- The first segments, in their places. -/
def placed : ℕ → Loader
  | 0 => ⟨m, 0, [], [], []⟩
  | i+1 => if IsSegment o m i then place v o kernelBase (Phdr.read m (headerAt o m i)) (placed i)
      else placed i

/-- The dynamic section that the first headers give: the last one counts. -/
def dynamicAt : ℕ → Ptr
  | 0 => 0
  | i+1 => if (Phdr.read m (headerAt o m i)).pType = 2 then
      o.base + (Phdr.read m (headerAt o m i)).pOffset else dynamicAt i

/-- A program header that is read within the object, and its segment. -/
structure HeaderFits (i : ℕ) : Prop where
  type : o.Holds (headerAt o m i) 4
  segment : IsSegment o m i →
    SegmentAt v o m kernelBase (headerAt o m i) (placed v o m kernelBase i)

/-- All of the program headers. -/
structure HeadersFit : Prop where
  phnum : o.Holds (o.base + 56) 2
  table : 0 < headers o m → o.Holds (o.base + 32) 8 ∧ o.Holds (o.base + 54) 2
  header : ∀ i < headers o m, HeaderFits v o m kernelBase i

variable {v o m kernelBase} {i n fuel : ℕ}

theorem placed_succ (hs : IsSegment o m i) : placed v o m kernelBase (i + 1) =
    place v o kernelBase (Phdr.read m (headerAt o m i)) (placed v o m kernelBase i) :=
  if_pos hs

theorem placed_skip (hs : ¬ IsSegment o m i) :
    placed v o m kernelBase (i + 1) = placed v o m kernelBase i :=
  if_neg hs

/-- A page that has been entered stays. -/
theorem placed_frames {f : Ptr} (hf : f ∈ (placed v o m kernelBase i).frames) (hi : i ≤ n) :
    f ∈ (placed v o m kernelBase n).frames := by
  induction n, hi using Nat.le_induction with
  | base => exact hf
  | succ n hi ih =>
    by_cases hs : IsSegment o m n
    · rw [placed_succ hs]
      exact mem_mapPages_frames.mpr (Or.inl ih)
    · rw [placed_skip hs]
      exact ih

theorem HeaderFits.keeps (h : HeaderFits v o m kernelBase i)
    (hk : (placed v o m kernelBase i).Keeps o m) : (placed v o m kernelBase (i + 1)).Keeps o m := by
  by_cases hs : IsSegment o m i
  · rw [placed_succ hs]
    exact (h.segment hs).segment.keeps hk
  · rw [placed_skip hs]
    exact hk

theorem placed_keeps (h : ∀ j < i, HeaderFits v o m kernelBase j) :
    (placed v o m kernelBase i).Keeps o m := by
  induction i with
  | zero => exact fun _ _ => rfl
  | succ i ih => exact (h i (Nat.lt_succ_self i)).keeps (ih fun j hj => h j (by omega))

theorem loadHeaders_succ (i : Word) (dynamic : Ptr) (s : Loader) :
    loadHeaders v o kernelBase (fuel + 1) i dynamic s =
      if o.Holds (o.base + 56) 2 then
        if i < (Ehdr.read s.mem o.base).ePhnum.setWidth 64 then
          if o.Holds (o.base + 32) 8 ∧ o.Holds (o.base + 54) 2 then
            if o.Holds (phdrAddr s.mem o.base i) 4 then
              (if (Phdr.read s.mem (phdrAddr s.mem o.base i)).pType = 1 ∨
                  (Phdr.read s.mem (phdrAddr s.mem o.base i)).pType = 2 then
                loadSegment v o kernelBase fuel (phdrAddr s.mem o.base i) s else some s).bind fun t =>
                  loadHeaders v o kernelBase fuel (i + 1)
                    (if (Phdr.read t.mem (phdrAddr s.mem o.base i)).pType = 2 then
                      o.base + (Phdr.read t.mem (phdrAddr s.mem o.base i)).pOffset else dynamic) t
            else none
          else none
        else some (dynamic, s)
      else none := by
  simp only [loadHeaders, Option.bind_eq_bind, guard_then]
  split_ifs <;> rfl

section Step

variable (hphnum : o.Holds (o.base + 56) 2) (hk : (placed v o m kernelBase i).Keeps o m)
include hphnum hk

theorem index_lt (hi : i < 2 ^ 64) : BitVec.ofNat 64 i <
    (Ehdr.read (placed v o m kernelBase i).mem o.base).ePhnum.setWidth 64 ↔ i < headers o m := by
  have hread : (Ehdr.read (placed v o m kernelBase i).mem o.base).ePhnum =
      (Ehdr.read m o.base).ePhnum := hk.read hphnum (by decide)
  have hlt := (Ehdr.read m o.base).ePhnum.isLt
  rw [hread, BitVec.lt_def, BitVec.toNat_ofNat, Nat.mod_eq_of_lt hi, BitVec.toNat_setWidth,
    Nat.mod_eq_of_lt (by omega), headers]

theorem loadHeaders_last (hi : i = headers o m) (hf : 0 < fuel) (dynamic : Ptr) :
    loadHeaders v o kernelBase fuel (BitVec.ofNat 64 i) dynamic (placed v o m kernelBase i) =
      some (dynamic, placed v o m kernelBase i) := by
  have hlt := (Ehdr.read m o.base).ePhnum.isLt
  have hle : i < 2 ^ 64 := by
    rw [hi, headers]
    omega
  obtain ⟨fuel, rfl⟩ : ∃ k, fuel = k + 1 := ⟨fuel - 1, by omega⟩
  rw [loadHeaders_succ, if_pos hphnum, if_neg]
  rw [index_lt hphnum hk hle]
  omega

variable (hi : i < headers o m) (htable : o.Holds (o.base + 32) 8 ∧ o.Holds (o.base + 54) 2)
include hi htable

/-- One turn of the loop over the program headers. -/
theorem loadHeaders_turn (dynamic : Ptr) :
    loadHeaders v o kernelBase (fuel + 1) (BitVec.ofNat 64 i) dynamic (placed v o m kernelBase i) =
      if o.Holds (headerAt o m i) 4 then
        (if IsSegment o m i then loadSegment v o kernelBase fuel (headerAt o m i)
          (placed v o m kernelBase i) else some (placed v o m kernelBase i)).bind fun t =>
            loadHeaders v o kernelBase fuel (BitVec.ofNat 64 (i + 1))
              (if (Phdr.read t.mem (headerAt o m i)).pType = 2 then
                o.base + (Phdr.read t.mem (headerAt o m i)).pOffset else dynamic) t
      else none := by
  have hlt := (Ehdr.read m o.base).ePhnum.isLt
  have hle : i < 2 ^ 64 := by
    rw [headers] at hi
    omega
  have hphoff : (Ehdr.read (placed v o m kernelBase i).mem o.base).ePhoff =
      (Ehdr.read m o.base).ePhoff := hk.read htable.1 (by decide)
  have hsize : (Ehdr.read (placed v o m kernelBase i).mem o.base).ePhentsize =
      (Ehdr.read m o.base).ePhentsize := hk.read htable.2 (by decide)
  have haddr : phdrAddr (placed v o m kernelBase i).mem o.base (BitVec.ofNat 64 i) =
      headerAt o m i := by
    rw [phdrAddr, hphoff, hsize]
    rfl
  have hnext : BitVec.ofNat 64 i + 1 = BitVec.ofNat 64 (i + 1) := (BitVec.ofNat_add ..).symm
  rw [loadHeaders_succ, if_pos hphnum, if_pos ((index_lt hphnum hk hle).mpr hi), if_pos htable, haddr,
    hnext]
  by_cases h4 : o.Holds (headerAt o m i) 4
  · rw [if_pos h4, if_pos h4, hk.pType h4]
    rfl
  · rw [if_neg h4, if_neg h4]

theorem loadHeaders_fits (h : HeaderFits v o m kernelBase i) (hf : 2 ^ 52 < fuel) :
    loadHeaders v o kernelBase (fuel + 1) (BitVec.ofNat 64 i) (dynamicAt o m i)
        (placed v o m kernelBase i) =
      loadHeaders v o kernelBase fuel (BitVec.ofNat 64 (i + 1)) (dynamicAt o m (i + 1))
        (placed v o m kernelBase (i + 1)) := by
  have hk' := h.keeps hk
  rw [loadHeaders_turn hphnum hk hi htable, if_pos h.type]
  by_cases hs : IsSegment o m i
  · obtain ⟨h8, h32, hsegment⟩ := h.segment hs
    rw [if_pos hs, (loadSegment_spec hk h.type hf).1 ⟨h8, h32, hsegment⟩, Option.bind_some,
      ← placed_succ hs, hk'.phdr h.type h8 h32]
    rfl
  · have htype : ¬ (Phdr.read m (headerAt o m i)).pType = 2 := fun hc => hs (Or.inr hc)
    have hdynamic : dynamicAt o m (i + 1) = dynamicAt o m i := if_neg htype
    rw [if_neg hs, Option.bind_some, hk.pType h.type, if_neg htype, placed_skip hs, hdynamic]

theorem loadHeaders_unfit (h : ¬ HeaderFits v o m kernelBase i) (hf : 2 ^ 52 < fuel)
    (dynamic : Ptr) : loadHeaders v o kernelBase (fuel + 1) (BitVec.ofNat 64 i) dynamic
      (placed v o m kernelBase i) = none := by
  rw [loadHeaders_turn hphnum hk hi htable]
  by_cases h4 : o.Holds (headerAt o m i) 4
  · have hs : IsSegment o m i ∧ ¬ SegmentAt v o m kernelBase (headerAt o m i)
        (placed v o m kernelBase i) :=
      Classical.not_imp.mp fun hc => h ⟨h4, hc⟩
    rw [if_pos h4, if_pos hs.1, (loadSegment_spec hk h4 hf).2 hs.2]
    rfl
  · exact if_neg h4

end Step

/-- From a header on, with all segments before it in place. -/
theorem loadHeaders_from (hphnum : o.Holds (o.base + 56) 2)
    (htable : 0 < headers o m → o.Holds (o.base + 32) 8 ∧ o.Holds (o.base + 54) 2)
    (hk : (placed v o m kernelBase i).Keeps o m) (hn : i + n = headers o m)
    (hf : 2 ^ 52 + n < fuel) :
    ((∀ j, i ≤ j → j < headers o m → HeaderFits v o m kernelBase j) →
      loadHeaders v o kernelBase fuel (BitVec.ofNat 64 i) (dynamicAt o m i)
        (placed v o m kernelBase i) =
          some (dynamicAt o m (headers o m), placed v o m kernelBase (headers o m))) ∧
    (¬ (∀ j, i ≤ j → j < headers o m → HeaderFits v o m kernelBase j) →
      loadHeaders v o kernelBase fuel (BitVec.ofNat 64 i) (dynamicAt o m i)
        (placed v o m kernelBase i) = none) := by
  induction n generalizing i fuel with
  | zero =>
    obtain rfl : i = headers o m := hn
    refine ⟨fun _ => loadHeaders_last hphnum hk rfl (by omega) _, fun hno => ?_⟩
    exact absurd (fun j hj hlt => absurd hj (Nat.not_le.mpr hlt)) hno
  | succ n ih =>
    obtain ⟨fuel, rfl⟩ : ∃ k, fuel = k + 1 := ⟨fuel - 1, by omega⟩
    have hi : i < headers o m := by omega
    have htable' := htable (Nat.zero_lt_of_lt hi)
    by_cases hfit : HeaderFits v o m kernelBase i
    · rw [loadHeaders_fits hphnum hk hi htable' hfit (by omega)]
      obtain ⟨hall, hno⟩ := @ih (i + 1) fuel (hfit.keeps hk) (by omega) (by omega)
      refine ⟨fun h => hall fun j hj => h j (by omega), fun h => hno fun hc => h fun j hj hlt => ?_⟩
      rcases Nat.eq_or_lt_of_le hj with rfl | hj'
      · exact hfit
      · exact hc j hj' hlt
    · rw [loadHeaders_unfit hphnum hk hi htable' hfit (by omega)]
      exact ⟨fun h => absurd (h i le_rfl hi) hfit, fun _ => rfl⟩

/-- The loop over the program headers ends with all segments in place if they fit, and it is stuck
otherwise. -/
theorem loadHeaders_spec (hf : 2 ^ 52 + headers o m < fuel) :
    (HeadersFit v o m kernelBase → loadHeaders v o kernelBase fuel 0 0 ⟨m, 0, [], [], []⟩ =
      some (dynamicAt o m (headers o m), placed v o m kernelBase (headers o m))) ∧
    (¬ HeadersFit v o m kernelBase →
      loadHeaders v o kernelBase fuel 0 0 ⟨m, 0, [], [], []⟩ = none) := by
  obtain ⟨fuel, rfl⟩ : ∃ k, fuel = k + 1 := ⟨fuel - 1, by omega⟩
  have hk : (placed v o m kernelBase 0).Keeps o m := fun _ _ => rfl
  constructor
  · rintro ⟨hphnum, htable, hheader⟩
    exact (loadHeaders_from hphnum htable hk (Nat.zero_add _) hf).1 fun j _ => hheader j
  · intro hno
    by_cases hphnum : o.Holds (o.base + 56) 2
    · by_cases htable : 0 < headers o m → o.Holds (o.base + 32) 8 ∧ o.Holds (o.base + 54) 2
      · refine (loadHeaders_from hphnum htable hk (Nat.zero_add _) hf).2 fun hall => hno ?_
        exact ⟨hphnum, htable, fun j => hall j (Nat.zero_le j)⟩
      · obtain ⟨hpos, htable⟩ := Classical.not_imp.mp htable
        have hlt := (index_lt hphnum hk (by decide)).mpr hpos
        rw [loadHeaders_succ, if_pos hphnum]
        exact (if_pos hlt).trans (if_neg htable)
    · rw [loadHeaders_succ, if_neg hphnum]

end Headers

end Pinion64
