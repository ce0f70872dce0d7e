import Pinion64.Elf

/-! unfold loads the pinion image: load_pinion64 of unfold's init.c, over the flat memory of 32-bit
protected mode from which it reads the image as well. -/
namespace Pinion64
open Bytes

namespace Unfold

/-- An address of protected mode. -/
abbrev Addr := BitVec 32

def pinionPhys : Addr := 0x00200000
def pinionBase : Word := 0xFFFFFFFFC0200000

section Records

def ehdr (m : Memory 32) (a : Addr) : Ehdr where
  eEntry := readLE m (a + 24) 8
  ePhoff := readLE m (a + 32) 8
  ePhentsize := readLE m (a + 54) 2
  ePhnum := readLE m (a + 56) 2

def phdr (m : Memory 32) (a : Addr) : Phdr where
  pType := readLE m a 4
  pOffset := readLE m (a + 8) 8
  pVaddr := readLE m (a + 16) 8
  pFilesz := readLE m (a + 32) 8
  pMemsz := readLE m (a + 40) 8

/-- The address of `binary[i]` for an index of 64 bits. -/
def index (binary : Addr) (i : Word) : Addr := binary + i.setWidth 32

/-- The address of a program header; e_phentsize * i is computed in 32 bits. -/
def phdrAddr (m : Memory 32) (elf64 : Addr) (i : BitVec 32) : Addr :=
  index elf64 ((ehdr m elf64).ePhoff + ((ehdr m elf64).ePhentsize.setWidth 32 * i).setWidth 64)

end Records

section Load

/-- The loop over the bytes of a segment, which reads its header anew for each of them. -/
def copySegment (binary header phys : Addr) : ℕ → BitVec 32 → Memory 32 → Option (Memory 32)
  | 0, _, _ => none
  | fuel+1, j, m =>
    if j.setWidth 64 < (phdr m header).pMemsz then
      copySegment binary header phys fuel (j + 1) <| Function.update m (phys + j) <|
        if j.setWidth 64 < (phdr m header).pFilesz then
          m (index binary ((phdr m header).pOffset + j.setWidth 64))
        else 0
    else some m

def loadSegments (elf64 : Addr) : ℕ → BitVec 32 → Memory 32 → Option (Memory 32)
  | 0, _, _ => none
  | fuel+1, i, m =>
    if i < (ehdr m elf64).ePhnum.setWidth 32 then
      let header := phdrAddr m elf64 i
      let phys := ((phdr m header).pVaddr + pinionPhys.setWidth 64).setWidth 32
      if (phdr m header).pType = 1 then
        (copySegment elf64 header phys fuel 0 m).bind (loadSegments elf64 fuel (i + 1))
      else loadSegments elf64 fuel (i + 1) m
    else some m

/-- The memory afterwards and the entry point. -/
def loadPinion64 (fuel : ℕ) (m : Memory 32) (elf64 : Addr) : Option (Memory 32 × Word) :=
  (loadSegments elf64 fuel 0 m).map fun m => (m, (ehdr m elf64).eEntry + pinionBase)

end Load

section Image

variable (m : Memory 32) (elf64 : Addr)

/-- The program header of an index. -/
def header (i : ℕ) : Phdr := phdr m (phdrAddr m elf64 (BitVec.ofNat 32 i))

/-- The header is one of a PT_LOAD segment. -/
def IsLoad (i : ℕ) : Prop := i < (ehdr m elf64).ePhnum.toNat ∧ (header m elf64 i).pType = 1

/-- Where a segment goes. -/
def target (i : ℕ) : ℕ := 0x200000 + (header m elf64 i).pVaddr.toNat

/-- The byte belongs to the memory range of a PT_LOAD segment. -/
def Covers (i : ℕ) (x : Addr) : Prop :=
  IsLoad m elf64 i ∧ target m elf64 i ≤ x.toNat ∧
    x.toNat < target m elf64 i + (header m elf64 i).pMemsz.toNat

/-- The address of a byte of a segment in the file. -/
def fileAddr (i k : ℕ) : Addr :=
  elf64 + BitVec.ofNat 32 ((header m elf64 i).pOffset.toNat + k)

/-- The bytes of the image: its header, the program headers, and the file bytes of the segments. -/
def InImage (x : Addr) : Prop :=
  Within elf64 64 x ∨
    (∃ i < (ehdr m elf64).ePhnum.toNat, Within (phdrAddr m elf64 (BitVec.ofNat 32 i)) 56 x) ∨
    ∃ i k, IsLoad m elf64 i ∧ k < (header m elf64 i).pFilesz.toNat ∧
      k < (header m elf64 i).pMemsz.toNat ∧ x = fileAddr m elf64 i k

/-- The segments lie below 4 GB and apart from each other and from the image. -/
structure Loadable : Prop where
  below : ∀ i, IsLoad m elf64 i →
    target m elf64 i + (header m elf64 i).pMemsz.toNat ≤ 2 ^ 32
  disjoint : ∀ i j x, Covers m elf64 i x → Covers m elf64 j x → i = j
  image : ∀ i x, Covers m elf64 i x → ¬ InImage m elf64 x

/-- The bytes of a segment in memory: those of the file, then zeros. -/
def content (i k : ℕ) : BitVec 8 :=
  if k < (header m elf64 i).pFilesz.toNat then m (fileAddr m elf64 i k) else 0

/-- The memory with the first segments loaded. -/
def loaded : ℕ → Memory 32
  | 0 => m
  | i+1 =>
    if (header m elf64 i).pType = 1 then
      fill (loaded i) (target m elf64 i) (header m elf64 i).pMemsz.toNat (content m elf64 i)
    else loaded i

end Image

variable {m m' : Memory 32} {elf64 : Addr} {i : ℕ}

section Frame

/-- Memories that agree on the bytes of the record hold the same record. -/
theorem ehdr_congr {a : Addr} (h : ∀ x, Within a 64 x → m' x = m x) : ehdr m' a = ehdr m a := by
  have hf : ∀ (o : Addr) (n : ℕ), o.toNat + n ≤ 64 → readLE m' (a + o) n = readLE m (a + o) n :=
    fun o n hn => readLE_eq_of_within (by omega) fun x hx => h x (within_field o hx hn (by decide))
  unfold ehdr
  rw [hf 24 8 (by decide), hf 32 8 (by decide), hf 54 2 (by decide), hf 56 2 (by decide)]

theorem phdr_congr {a : Addr} (h : ∀ x, Within a 56 x → m' x = m x) : phdr m' a = phdr m a := by
  have hf : ∀ (o : Addr) (n : ℕ), o.toNat + n ≤ 56 → readLE m' (a + o) n = readLE m (a + o) n :=
    fun o n hn => readLE_eq_of_within (by omega) fun x hx => h x (within_field o hx hn (by decide))
  have h0 : readLE m' a 4 = readLE m a 4 :=
    readLE_eq_of_within (by decide) fun x hx => h x (lt_of_lt_of_le hx (by decide))
  unfold phdr
  rw [h0, hf 8 8 (by decide), hf 16 8 (by decide), hf 32 8 (by decide), hf 40 8 (by decide)]

end Frame

section Segment

variable {binary h : Addr} {d : ℕ} {p : Phdr} {f : ℕ → BitVec 8}

theorem counter_toNat {j : ℕ} (hj : j < 2 ^ 32) : ((BitVec.ofNat 32 j).setWidth 64).toNat = j := by
  rw [BitVec.toNat_setWidth, BitVec.toNat_ofNat]
  omega

theorem counter_lt {j : ℕ} (hj : j < 2 ^ 32) {v : Word} :
    (BitVec.ofNat 32 j).setWidth 64 < v ↔ j < v.toNat := by
  rw [BitVec.lt_def, counter_toNat hj]

/-- The index is taken modulo the size of the memory. -/
theorem index_add {j : ℕ} (hj : j < 2 ^ 32) (v : Word) :
    index binary (v + (BitVec.ofNat 32 j).setWidth 64) =
      binary + BitVec.ofNat 32 (v.toNat + j) := by
  rw [index]
  congr 1
  apply BitVec.eq_of_toNat_eq
  rw [BitVec.toNat_setWidth, BitVec.toNat_add, counter_toNat hj, BitVec.toNat_ofNat]
  omega

/-- The loop fills the range of the segment byte by byte. -/
theorem copySegment_fill (hp : phdr m h = p) (hd : d + p.pMemsz.toNat ≤ 2 ^ 32) (h0 : 0 < d)
    (hrec : ∀ x : Addr, d ≤ x.toNat → x.toNat < d + p.pMemsz.toNat → ¬ Within h 56 x)
    (hfile : ∀ k < p.pFilesz.toNat, k < p.pMemsz.toNat → ∀ x : Addr, d ≤ x.toNat →
      x.toNat < d + p.pMemsz.toNat → x ≠ binary + BitVec.ofNat 32 (p.pOffset.toNat + k))
    (hf : ∀ k < p.pMemsz.toNat, f k = if k < p.pFilesz.toNat then
      m (binary + BitVec.ofNat 32 (p.pOffset.toNat + k)) else 0) {n j : ℕ} (hn : j + n = p.pMemsz.toNat) {fuel : ℕ} (hfuel : n < fuel) :
    copySegment binary h (BitVec.ofNat 32 d) fuel (BitVec.ofNat 32 j) (fill m d j f) =
      some (fill m d p.pMemsz.toNat f) := by
  have hj : j < 2 ^ 32 := by omega
  have hphdr : phdr (fill m d j f) h = p := by
    rw [← hp]
    refine phdr_congr fun x hx => fill_outside fun hc => ?_
    exact hrec x hc.1 (by omega) hx
  induction n generalizing j fuel with
  | zero =>
    obtain ⟨fuel, rfl⟩ : ∃ k, fuel = k + 1 := ⟨fuel - 1, by omega⟩
    rw [copySegment, hphdr, if_neg]
    · rw [show j = p.pMemsz.toNat by omega]
    · rw [counter_lt hj]
      omega
  | succ n ih =>
    obtain ⟨fuel, rfl⟩ : ∃ k, fuel = k + 1 := ⟨fuel - 1, by omega⟩
    have hlt : j < p.pMemsz.toNat := by omega
    rw [copySegment, hphdr, if_pos ((counter_lt hj).mpr hlt), index_add hj]
    have hbyte : (if (BitVec.ofNat 32 j).setWidth 64 < p.pFilesz then
        fill m d j f (binary + BitVec.ofNat 32 (p.pOffset.toNat + j)) else 0) = f j := by
      rw [hf j hlt]
      refine if_ctx_congr (counter_lt hj) (fun hk => ?_) fun _ => rfl
      refine fill_outside fun hc => ?_
      exact hfile j hk hlt _ hc.1 (by omega) rfl
    have hphys : BitVec.ofNat 32 d + BitVec.ofNat 32 j = BitVec.ofNat 32 (d + j) :=
      (BitVec.ofNat_add ..).symm
    have hnext : BitVec.ofNat 32 j + 1 = BitVec.ofNat 32 (j + 1) := (BitVec.ofNat_add ..).symm
    rw [hbyte, hphys, update_fill (by omega), hnext]
    refine ih (by omega) (by omega) (by omega) ?_
    rw [← hp]
    refine phdr_congr fun x hx => fill_outside fun hc => ?_
    exact hrec x hc.1 (by omega) hx

end Segment

section Run

variable (hl : Loadable m elf64)
include hl

/-- The segments that have been loaded leave the image as it is. -/
theorem loaded_image {n : ℕ} (hn : n ≤ (ehdr m elf64).ePhnum.toNat) {x : Addr}
    (hx : InImage m elf64 x) : loaded m elf64 n x = m x := by
  induction n with
  | zero => rfl
  | succ n ih =>
    rw [loaded]
    split_ifs with ht
    · rw [fill_outside, ih (by omega)]
      intro hc
      exact hl.image n x ⟨⟨by omega, ht⟩, hc⟩ hx
    · exact ih (by omega)

theorem loaded_ehdr {n : ℕ} (hn : n ≤ (ehdr m elf64).ePhnum.toNat) :
    ehdr (loaded m elf64 n) elf64 = ehdr m elf64 :=
  ehdr_congr fun _ hx => loaded_image hl hn (Or.inl hx)

theorem loaded_header {n : ℕ} (hn : n ≤ (ehdr m elf64).ePhnum.toNat)
    (hi : i < (ehdr m elf64).ePhnum.toNat) :
    phdr (loaded m elf64 n) (phdrAddr m elf64 (BitVec.ofNat 32 i)) = header m elf64 i :=
  phdr_congr fun _ hx => loaded_image hl hn (Or.inr (Or.inl ⟨i, hi, hx⟩))

/-- The loop loads one segment after the other. -/
theorem loadSegments_loaded {n : ℕ} (hn : i + n = (ehdr m elf64).ePhnum.toNat) {fuel : ℕ}
    (hfuel : n + 2 ^ 32 < fuel) :
    loadSegments elf64 fuel (BitVec.ofNat 32 i) (loaded m elf64 i) =
      some (loaded m elf64 (ehdr m elf64).ePhnum.toNat) := by
  have hphnum := (ehdr m elf64).ePhnum.isLt
  have hlt : ∀ {i : ℕ}, i ≤ (ehdr m elf64).ePhnum.toNat →
      (BitVec.ofNat 32 i < (ehdr m elf64).ePhnum.setWidth 32 ↔ i < (ehdr m elf64).ePhnum.toNat) := by
    intro i hi
    rw [BitVec.lt_def, BitVec.toNat_ofNat, BitVec.toNat_setWidth]
    omega
  induction n generalizing i fuel with
  | zero =>
    obtain ⟨fuel, rfl⟩ : ∃ k, fuel = k + 1 := ⟨fuel - 1, by omega⟩
    rw [loadSegments, loaded_ehdr hl (by omega), if_neg]
    · rw [show i = (ehdr m elf64).ePhnum.toNat by omega]
    · rw [hlt (by omega)]
      omega
  | succ n ih =>
    obtain ⟨fuel, rfl⟩ : ∃ k, fuel = k + 1 := ⟨fuel - 1, by omega⟩
    have hi : i < (ehdr m elf64).ePhnum.toNat := by omega
    have hnext : BitVec.ofNat 32 i + 1 = BitVec.ofNat 32 (i + 1) := (BitVec.ofNat_add ..).symm
    have haddr : phdrAddr (loaded m elf64 i) elf64 (BitVec.ofNat 32 i) =
        phdrAddr m elf64 (BitVec.ofNat 32 i) := by
      rw [phdrAddr, loaded_ehdr hl (by omega), phdrAddr]
    rw [loadSegments, loaded_ehdr hl (by omega), if_pos ((hlt (by omega)).mpr hi), haddr, hnext]
    simp only [loaded_header hl (show i ≤ _ by omega) hi]
    have hgo : loadSegments elf64 fuel (BitVec.ofNat 32 (i + 1)) (loaded m elf64 (i + 1)) =
        some (loaded m elf64 (ehdr m elf64).ePhnum.toNat) := ih (by omega) (by omega)
    rw [loaded] at hgo
    split_ifs with ht
    · rw [if_pos ht] at hgo
      have hload : IsLoad m elf64 i := ⟨hi, ht⟩
      have hbelow := hl.below i hload
      have hphys : ((header m elf64 i).pVaddr + pinionPhys.setWidth 64).setWidth 32 =
          BitVec.ofNat 32 (target m elf64 i) := by
        apply BitVec.eq_of_toNat_eq
        rw [BitVec.toNat_setWidth, BitVec.toNat_add, BitVec.toNat_ofNat, target]
        change ((header m elf64 i).pVaddr.toNat + 0x200000) % 2 ^ 64 % 2 ^ 32 = _
        omega
      have hsize : (header m elf64 i).pMemsz.toNat < 2 ^ 32 := by
        rw [target] at hbelow
        omega
      have hcopy : copySegment elf64 (phdrAddr m elf64 (BitVec.ofNat 32 i))
          (BitVec.ofNat 32 (target m elf64 i)) fuel (BitVec.ofNat 32 0)
          (fill (loaded m elf64 i) (target m elf64 i) 0 (content m elf64 i)) =
          some (fill (loaded m elf64 i) (target m elf64 i) (header m elf64 i).pMemsz.toNat
            (content m elf64 i)) :=
        copySegment_fill (loaded_header hl (n := i) (by omega) hi) hbelow (by rw [target]; omega)
        (fun x h1 h2 hx => hl.image i x ⟨hload, h1, h2⟩ (Or.inr (Or.inl ⟨i, hi, hx⟩)))
        (fun k hk hk' x h1 h2 hx =>
          hl.image i x ⟨hload, h1, h2⟩ (Or.inr (Or.inr ⟨i, k, hload, hk, hk', hx⟩)))
        (fun k hk => if_ctx_congr Iff.rfl (fun hf => (loaded_image hl (by omega)
          (Or.inr (Or.inr ⟨i, k, hload, hf, hk, rfl⟩))).symm) fun _ => rfl)
        (Nat.zero_add _) (by omega)
      rw [fill_zero] at hcopy
      rw [hphys, show (0 : BitVec 32) = BitVec.ofNat 32 0 from rfl, hcopy]
      exact hgo
    · rw [if_neg ht] at hgo
      exact hgo

/-- Only the segment that covers a byte writes it. -/
theorem loaded_covered {n : ℕ} (hn : n ≤ (ehdr m elf64).ePhnum.toNat) (hi : i < n) {x : Addr}
    (hx : Covers m elf64 i x) :
    loaded m elf64 n x = content m elf64 i (x.toNat - target m elf64 i) := by
  induction n with
  | zero => exact absurd hi (Nat.not_lt_zero i)
  | succ n ih =>
    rw [loaded]
    by_cases hin : i = n
    · subst hin
      rw [if_pos hx.1.2, fill_inside hx.2.1 hx.2.2]
    · have hrest := ih (by omega) (by omega)
      split_ifs with ht
      · rw [fill_outside, hrest]
        intro hc
        exact hin (hl.disjoint i n x hx ⟨⟨by omega, ht⟩, hc⟩)
      · exact hrest

omit hl in
theorem loaded_other {n : ℕ} (hn : n ≤ (ehdr m elf64).ePhnum.toNat) {x : Addr}
    (hx : ∀ i, ¬ Covers m elf64 i x) : loaded m elf64 n x = m x := by
  induction n with
  | zero => rfl
  | succ n ih =>
    rw [loaded]
    split_ifs with ht
    · rw [fill_outside, ih (by omega)]
      intro hc
      exact hx n ⟨⟨by omega, ht⟩, hc⟩
    · exact ih (by omega)

end Run

section Result

variable (hl : Loadable m elf64)
include hl

theorem loadPinion64_eq {fuel : ℕ} (hfuel : 2 ^ 32 + 2 ^ 16 < fuel) : loadPinion64 fuel m elf64 =
    some (loaded m elf64 (ehdr m elf64).ePhnum.toNat, (ehdr m elf64).eEntry + pinionBase) := by
  have hphnum := (ehdr m elf64).ePhnum.isLt
  have hrun : loadSegments elf64 fuel (BitVec.ofNat 32 0) (loaded m elf64 0) =
      some (loaded m elf64 (ehdr m elf64).ePhnum.toNat) :=
    loadSegments_loaded hl (Nat.zero_add _) (by omega)
  rw [loadPinion64, show (0 : BitVec 32) = BitVec.ofNat 32 0 from rfl,
    show m = loaded m elf64 0 from rfl, hrun, Option.map_some, loaded_ehdr hl le_rfl]
  rfl

theorem loaded_byte (hi : IsLoad m elf64 i) {k : ℕ} (hk : k < (header m elf64 i).pMemsz.toNat) :
    loaded m elf64 (ehdr m elf64).ePhnum.toNat (BitVec.ofNat 32 (target m elf64 i + k)) =
      content m elf64 i k := by
  have hbelow := hl.below i hi
  have hx : (BitVec.ofNat 32 (target m elf64 i + k)).toNat = target m elf64 i + k := by
    rw [BitVec.toNat_ofNat, Nat.mod_eq_of_lt (by omega)]
  have h := loaded_covered hl le_rfl hi.1 (x := BitVec.ofNat 32 (target m elf64 i + k))
    ⟨hi, by omega, by omega⟩
  rw [hx, Nat.add_sub_cancel_left] at h
  exact h

end Result

/-- Every PT_LOAD segment is in place, with zeros behind its file bytes, and no other byte has
changed. -/
theorem pinion_loaded_exactly (m : Memory 32) (elf64 : Addr) (hl : Loadable m elf64) :
    ∃ m', (∀ fuel, 2 ^ 32 + 2 ^ 16 < fuel → loadPinion64 fuel m elf64 =
        some (m', (ehdr m elf64).eEntry + 0xFFFFFFFFC0200000)) ∧
      (∀ i, IsLoad m elf64 i → ∀ k < (header m elf64 i).pMemsz.toNat,
        m' (BitVec.ofNat 32 (0x200000 + (header m elf64 i).pVaddr.toNat + k)) =
          if k < (header m elf64 i).pFilesz.toNat then
            m (elf64 + BitVec.ofNat 32 ((header m elf64 i).pOffset.toNat + k))
          else 0) ∧
      ∀ x, (∀ i, ¬ Covers m elf64 i x) → m' x = m x :=
  ⟨loaded m elf64 (ehdr m elf64).ePhnum.toNat, fun _ hfuel => loadPinion64_eq hl hfuel,
    fun _ hi _ hk => loaded_byte hl hi hk, fun _ hx => loaded_other le_rfl hx⟩

/-- An image with a single segment: its two file bytes lie behind the headers, and two bytes of zero
follow in memory. -/
def sampleBytes : List (BitVec 8) :=
  [0x7F, 0x45, 0x4C, 0x46, 2, 1, 1, 0, 0, 0, 0, 0, 0, 0, 0, 0, 2, 0, 62, 0, 1, 0, 0, 0,
    0x10, 0, 0, 0, 0, 0, 0, 0, 64, 0, 0, 0, 0, 0, 0, 0, 0, 0, 0, 0, 0, 0, 0, 0,
    0, 0, 0, 0, 64, 0, 56, 0, 1, 0, 0, 0, 0, 0, 0, 0,
    1, 0, 0, 0, 5, 0, 0, 0, 120, 0, 0, 0, 0, 0, 0, 0, 0, 0, 0, 0, 0, 0, 0, 0,
    0, 0, 0, 0, 0, 0, 0, 0, 2, 0, 0, 0, 0, 0, 0, 0, 4, 0, 0, 0, 0, 0, 0, 0, 0, 0, 0, 0, 0, 0, 0, 0,
    0xAA, 0xBB]

/-- The image at 0x1000000. -/
def sampleImage : Memory 32 := fun x => sampleBytes.getD (x - 0x1000000).toNat 0xFF

theorem sampleImage_ehdr : ehdr sampleImage 0x1000000 = ⟨0x10, 64, 56, 1⟩ := by decide +kernel

theorem sampleImage_header : header sampleImage 0x1000000 0 = ⟨1, 120, 0, 2, 4⟩ := by
  decide +kernel

/-- The headers decide that an image at 0x1000000 can be loaded. -/
theorem loadable_sample {m : Memory 32} (hehdr : ehdr m 0x1000000 = ⟨0x10, 64, 56, 1⟩)
    (hheader : header m 0x1000000 0 = ⟨1, 120, 0, 2, 4⟩) : Loadable m 0x1000000 := by
  have hphnum : (ehdr m 0x1000000).ePhnum.toNat = 1 := by
    rw [hehdr]
    rfl
  have hzero : ∀ i, IsLoad m 0x1000000 i → i = 0 := by
    intro i hi
    have hlt := hi.1
    omega
  have htarget : target m 0x1000000 0 = 0x200000 := by
    rw [target, hheader]
    rfl
  have haddr : phdrAddr m 0x1000000 0 = 0x1000040 := by
    rw [phdrAddr, hehdr]
    rfl
  have hcov : ∀ i x, Covers m 0x1000000 i x →
      i = 0 ∧ 0x200000 ≤ x.toNat ∧ x.toNat < 0x200004 := by
    intro i x hx
    obtain rfl := hzero i hx.1
    obtain ⟨-, h1, h2⟩ := hx
    rw [htarget] at h1 h2
    rw [hheader] at h2
    exact ⟨rfl, h1, h2⟩
  refine ⟨fun i hi => ?_, fun i j x hi hj => ?_, fun i x hx => ?_⟩
  · obtain rfl := hzero i hi
    rw [htarget, hheader]
    decide
  · exact (hcov i x hi).1.trans (hcov j x hj).1.symm
  · obtain ⟨-, h1, h2⟩ := hcov i x hx
    have hfar : ∀ a : Addr, 0x1000000 ≤ a.toNat → a.toNat ≤ 0x2000000 → ¬ Within a 64 x := by
      intro a ha hb hc
      rw [Within, BitVec.toNat_sub] at hc
      omega
    rintro (hw | ⟨j, hj, hw⟩ | ⟨j, k, hj, hk, -, he⟩)
    · exact hfar _ (by decide) (by decide) hw
    · obtain rfl : j = 0 := by omega
      rw [show BitVec.ofNat 32 0 = 0 from rfl, haddr] at hw
      exact hfar _ (by decide) (by decide) (lt_trans hw (by decide))
    · obtain rfl := hzero j hj
      rw [fileAddr] at he
      rw [hheader] at hk he
      have hk' : k < 2 := hk
      obtain rfl | rfl : k = 0 ∨ k = 1 := by omega
      · subst he
        exact absurd h2 (by decide)
      · subst he
        exact absurd h2 (by decide)

theorem sampleImage_loadable : Loadable sampleImage 0x1000000 :=
  loadable_sample sampleImage_ehdr sampleImage_header

/-- The segment is loaded. -/
theorem pinion_loaded_exactly_sample : ∃ m',
    loadPinion64 (2 ^ 33) sampleImage 0x1000000 = some (m', 0xFFFFFFFFC0200010) ∧
      m' 0x200001 = 0xBB ∧ m' 0x200003 = 0 := by
  obtain ⟨m', hrun, hload, -⟩ := pinion_loaded_exactly sampleImage 0x1000000 sampleImage_loadable
  have hi : IsLoad sampleImage 0x1000000 0 := by
    refine ⟨?_, ?_⟩
    · rw [sampleImage_ehdr]
      decide
    · rw [sampleImage_header]
  refine ⟨m', ?_, ?_, ?_⟩
  · have hentry : (0x10 : Word) + 0xFFFFFFFFC0200000 = 0xFFFFFFFFC0200010 := by decide
    rw [hrun _ (by omega), sampleImage_ehdr, hentry]
  · have h := hload 0 hi 1 (by rw [sampleImage_header]; decide)
    rw [sampleImage_header] at h
    exact h.trans (by decide +kernel)
  · have h := hload 0 hi 3 (by rw [sampleImage_header]; decide)
    rw [sampleImage_header] at h
    exact h.trans (by decide +kernel)

end Unfold
end Pinion64
