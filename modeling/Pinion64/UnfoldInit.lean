import Pinion64.ModuleNames

/-! The rest of unfold's init: init_mmap, init_object_list, the check and the loading of the pinion
image, and the call of init_enter_long. -/
namespace Pinion64
open Bytes

namespace Unfold

section Model

/-- `entry[i].size` of a memory map. -/
def regionSize (m : Memory 32) (a : Addr) (i : BitVec 32) : Word := readLE m (a + (24 + 16 * i)) 8

def totalLoop : ℕ → BitVec 32 → Machine → Option Machine
  | 0, _, _ => none
  | fuel+1, i, s =>
    if i.setWidth 64 < regionCount s.mem s.mmap then
      totalLoop fuel (i + 1) (s.write64 .mmap 0 (mmapTotal s.mem s.mmap + regionSize s.mem s.mmap i))
    else some s

/-- The two loops behind the first only log. -/
def initMmap (fuel : ℕ) (s : Machine) : Option (Machine × BitVec 32) :=
  if s.mmap = 0 then some (s, 1)
  else (totalLoop fuel 0 (s.write64 .mmap 0 0)).map fun s => (s, 0)

/-- The first object of the type is the pinion image. -/
def imageLoop : ℕ → BitVec 32 → Machine → Option Machine
  | 0, _, _ => none
  | fuel+1, i, s =>
    if i < objectCount s.mem s.objectList then
      if objectType s.mem s.objectList i = unfoldObjectPinion then
        some { s with pinionImage := s.objectList + entryOffset i }
      else imageLoop fuel (i + 1) s
    else some s

def initObjectList (fuel : ℕ) (s : Machine) : Option (Machine × BitVec 32) :=
  if s.objectList = 0 then some (s, 1) else (imageLoop fuel 0 s).map fun s => (s, 0)

def loadPinion (fuel : ℕ) (m : Memory 32) (elf : Addr) : Option (Memory 32 × Word) :=
  if m elf ≠ 0x7F ∨ m (elf + 1) ≠ 0x45 ∨ m (elf + 2) ≠ 0x4C ∨ m (elf + 3) ≠ 0x46 then some (m, 0)
  else if m (elf + 4) = 2 ∧ m (elf + 5) = 1 ∧ (readLE m (elf + 18) 2 : BitVec 16) = 62 then
    loadPinion64 fuel m elf
  else some (m, 0)

def relocateObjects : ℕ → BitVec 32 → Machine → Option Machine
  | 0, _, _ => none
  | fuel+1, i, s =>
    if i < objectCount s.mem s.objectList then
      relocateObjects fuel (i + 1) <|
        s.write64 .objl (entryOffset i) (objectBase s.mem s.objectList i + 0xFFFFFFFFC0000000)
    else some s

/-- `pinion_image->base` -/
def imageBase (s : Machine) : Word := readLE s.mem s.pinionImage 8

/-- What init_enter_long is called with. -/
structure EnterLong where
  entry : Word
  mmap : Word
  objl : Word

/-- The end of init, from load_pinion on. -/
def enterPinion (fuel : ℕ) (s : Machine) : Option (Machine × Option EnterLong) :=
  (loadPinion fuel s.mem ((imageBase s).setWidth 32)).bind fun p =>
    (relocateObjects fuel 0 { s with mem := p.1 }).map fun s =>
      (s, some ⟨p.2, s.mmap.setWidth 64 + 0xFFFFFFFFC0000000,
        s.objectList.setWidth 64 + 0xFFFFFFFFC0000000⟩)

/-- init from init_mmap on. -/
def bootPinion (fuel : ℕ) (s : Machine) : Option (Machine × Option EnterLong) :=
  (initMmap fuel s).bind fun p =>
    if p.2 ≠ 0 then some (p.1, none)
    else (initObjectList fuel p.1).bind fun q =>
      if q.2 ≠ 0 then some (q.1, none)
      else if q.1.pinionImage = 0 then some (q.1, none)
      else if 0x100000000 ≤ imageBase q.1 then some (q.1, none)
      else enterPinion fuel q.1

variable (L : Layout)

/-- The machine in the end, and the call of init_enter_long if init gets there. -/
def init (fuel : ℕ) (s : Machine) (mboot : Addr) (magic : BitVec 32) :
    Option (Machine × Option EnterLong) :=
  if magic = 0x2BADB002 then (initMultiboot L fuel s mboot).bind fun s => bootPinion fuel s
  else some (s, none)

end Model

section Total

variable {m : Memory 32} {b : Addr} {s s' : Machine} {v : Word} {n k : ℕ}

/-- The global pointers are the same. -/
structure SamePointers (s s' : Machine) : Prop where
  mmap : s'.mmap = s.mmap
  objectList : s'.objectList = s.objectList
  pinionImage : s'.pinionImage = s.pinionImage

theorem write64_total (hb : s.mmap = b) (hm : s.mem = writeLE m b (n := 8) v) (u : Word) :
    (s.write64 .mmap 0 u).mem = writeLE m b (n := 8) u := by
  change writeLE s.mem (s.mmap + 0) (n := 8) u = _
  rw [add_zero, hb, hm, writeLE_writeLE]

theorem mmapTotal_writeLE : mmapTotal (writeLE m b (n := 8) v) b = v :=
  readLE_writeLE m b (n := 8) v (by decide)

/-- The fields behind the total. -/
theorem readLE_total {o : Addr} (ho : 8 ≤ o.toNat) (hle : o.toNat + 8 ≤ 256) :
    readLE (writeLE m b (n := 8) v) (b + o) 8 = readLE m (b + o) 8 := by
  have h := readLE_writeLE_apart m v (by decide) (separate_fields b (o := 0) (n := 8) (k := 8)
    (by decide) ho (by omega))
  rwa [add_zero] at h

theorem regionSize_writeLE (hk : k < 15) : regionSize (writeLE m b (n := 8) v) b (BitVec.ofNat 32 k) =
    readLE m (b + BitVec.ofNat 32 (24 + 16 * k)) 8 := by
  have hoff : 24 + 16 * BitVec.ofNat 32 k = BitVec.ofNat 32 (24 + 16 * k) := by
    rw [BitVec.ofNat_add, BitVec.ofNat_mul]
    rfl
  have htoNat : (BitVec.ofNat 32 (24 + 16 * k)).toNat = 24 + 16 * k := by
    rw [BitVec.toNat_ofNat]
    omega
  rw [regionSize, hoff, readLE_total (by omega) (by omega)]

/-- The loop adds up the sizes of the entries. -/
theorem totalLoop_sum (hb : s.mmap = b) (hm : s.mem = writeLE m b (n := 8) v)
    (hcount : (regionCount m b).toNat ≤ 15) (hn : k + n = (regionCount m b).toNat) :
    ∃ s', SamePointers s s' ∧
      s'.mem = writeLE m b (n := 8) (v + (((mapEntries m b).drop k).map Prod.snd).sum) ∧
      ∀ fuel, n < fuel → totalLoop fuel (BitVec.ofNat 32 k) s = some s' := by
  have hlen : (mapEntries m b).length = (regionCount m b).toNat := by
    rw [mapEntries, List.length_map, List.length_range]
  have hc : ∀ (s : Machine) (v : Word), s.mem = writeLE m b (n := 8) v →
      regionCount s.mem b = regionCount m b := by
    intro s v hm
    rw [hm]
    exact readLE_total (o := 8) (by decide) (by decide)
  have hlt : ∀ k : ℕ, k ≤ 15 →
      ((BitVec.ofNat 32 k).setWidth 64 < regionCount m b ↔ k < (regionCount m b).toNat) := by
    intro k hk
    exact counter_lt (by omega)
  induction n generalizing k s v with
  | zero =>
    refine ⟨s, ⟨rfl, rfl, rfl⟩, ?_, fun fuel hf => ?_⟩
    · rw [List.drop_eq_nil_of_le (by omega), hm, List.map_nil, List.sum_nil, add_zero]
    · obtain ⟨fuel, rfl⟩ : ∃ k, fuel = k + 1 := ⟨fuel - 1, by omega⟩
      rw [totalLoop, hb, hc s v hm, if_neg]
      rw [hlt k (by omega)]
      omega
  | succ n ih =>
    have hk : k < (mapEntries m b).length := by omega
    have hentry : (mapEntries m b)[k].2 = regionSize s.mem b (BitVec.ofNat 32 k) := by
      rw [hm, regionSize_writeLE (by omega)]
      simp [mapEntries]
    obtain ⟨s', hsame, hmem, hrun⟩ := ih (k := k + 1) (s := s.write64 .mmap 0
      (v + regionSize s.mem b (BitVec.ofNat 32 k))) (by rw [write64_mmap, hb])
      (write64_total hb hm _) (by omega)
    refine ⟨s', ⟨hsame.mmap, hsame.objectList, hsame.pinionImage⟩, ?_, fun fuel hf => ?_⟩
    · rw [hmem, List.drop_eq_getElem_cons hk, List.map_cons, List.sum_cons, hentry, add_assoc]
    · obtain ⟨fuel, rfl⟩ : ∃ k, fuel = k + 1 := ⟨fuel - 1, by omega⟩
      rw [totalLoop, hb, hc s v hm, if_pos ((hlt k (by omega)).mpr (by omega)), hm,
        mmapTotal_writeLE, ← hm, index_succ, hrun fuel (by omega)]

/-- init_mmap leaves the map that init_multiboot has made as it is. -/
theorem initMmap_same (hb : s.mmap = b) (hne : b ≠ 0) (hcount : (regionCount s.mem b).toNat ≤ 15)
    (htotal : mmapTotal s.mem b = ((mapEntries s.mem b).map Prod.snd).sum) :
    ∃ s', SamePointers s s' ∧ s'.mem = s.mem ∧
      ∀ fuel, 15 < fuel → initMmap fuel s = some (s', 0) := by
  have hstart : (s.write64 .mmap 0 0).mem = writeLE s.mem b (n := 8) 0 := by
    change writeLE s.mem (s.mmap + 0) (n := 8) 0 = _
    rw [add_zero, hb]
  obtain ⟨s', hsame, hmem, hrun⟩ := totalLoop_sum (by rw [write64_mmap, hb]) hstart hcount
    (Nat.zero_add _)
  refine ⟨s', ⟨hsame.mmap, hsame.objectList, hsame.pinionImage⟩, ?_, fun fuel hf => ?_⟩
  · rw [hmem, List.drop_zero, zero_add, ← htotal]
    exact writeLE_readLE s.mem b (n := 8)
  · rw [initMmap, if_neg (by rw [hb]; exact hne)]
    have h := hrun fuel (by omega)
    exact congrArg (Option.map fun s => (s, (0 : BitVec 32))) h

end Total

/-- The first object of type PINION in a list. -/
structure FirstPinion (m : Memory 32) (b : Addr) (i : BitVec 32) : Prop where
  lt : i < objectCount m b
  type : objectType m b i = unfoldObjectPinion
  first : ∀ j < i, objectType m b j ≠ unfoldObjectPinion

theorem FirstPinion.unique {m : Memory 32} {b : Addr} {i j : BitVec 32} (h : FirstPinion m b i)
    (h' : FirstPinion m b j) : i = j := by
  rcases lt_trichotomy i.toNat j.toNat with hlt | heq | hlt
  · exact absurd h.type (h'.first i (BitVec.lt_def.mpr hlt))
  · exact BitVec.eq_of_toNat_eq heq
  · exact absurd h'.type (h.first j (BitVec.lt_def.mpr hlt))

theorem exists_first {m : Memory 32} {b j : BitVec 32} (hj : j < objectCount m b)
    (ht : objectType m b j = unfoldObjectPinion) : ∃ i, FirstPinion m b i := by
  obtain ⟨n, hn⟩ : ∃ n, j.toNat = n := ⟨_, rfl⟩
  induction n using Nat.strong_induction_on generalizing j with
  | _ n ih =>
    by_cases hfirst : ∀ k < j, objectType m b k ≠ unfoldObjectPinion
    · exact ⟨j, hj, ht, hfirst⟩
    · obtain ⟨k, hk⟩ := not_forall.mp hfirst
      obtain ⟨hkj, htk⟩ := Classical.not_imp.mp hk
      have hlt := BitVec.lt_def.mp hkj
      exact ih k.toNat (by omega) (BitVec.lt_trans hkj hj) (not_not.mp htk) rfl

section Image

variable {b i : BitVec 32} {s : Machine} {n k fuel : ℕ} (hb : s.objectList = b)
include hb

theorem imageLoop_first (h : FirstPinion s.mem b i) (hn : k + n = i.toNat) (hf : n < fuel) :
    imageLoop fuel (BitVec.ofNat 32 k) s =
      some { s with pinionImage := s.objectList + entryOffset i } := by
  have hi := i.isLt
  have hlt := BitVec.lt_def.mp h.lt
  obtain ⟨fuel, rfl⟩ : ∃ k, fuel = k + 1 := ⟨fuel - 1, by omega⟩
  have hk : (BitVec.ofNat 32 k).toNat = k := toNat_index (n := i.toNat) (by omega) hi
  have hcount : BitVec.ofNat 32 k < objectCount s.mem s.objectList := by
    rw [hb, BitVec.lt_def, hk]
    omega
  induction n generalizing k fuel with
  | zero =>
    obtain rfl : BitVec.ofNat 32 k = i := BitVec.eq_of_toNat_eq (by omega)
    rw [imageLoop, if_pos hcount, hb, if_pos h.type]
  | succ n ih =>
    have hne := h.first (BitVec.ofNat 32 k) (by rw [BitVec.lt_def, hk]; omega)
    have hk' : (BitVec.ofNat 32 (k + 1)).toNat = k + 1 := toNat_index (n := i.toNat) (by omega) hi
    obtain ⟨fuel, rfl⟩ : ∃ k, fuel = k + 1 := ⟨fuel - 1, by omega⟩
    rw [imageLoop, if_pos hcount, hb, if_neg hne, index_succ]
    rw [← hb]
    exact ih (by omega) fuel (by omega) hk' (by rw [hb, BitVec.lt_def, hk']; omega)

theorem imageLoop_none (h : ∀ j < objectCount s.mem b, objectType s.mem b j ≠ unfoldObjectPinion)
    (hn : k + n = (objectCount s.mem b).toNat) (hf : n < fuel) :
    imageLoop fuel (BitVec.ofNat 32 k) s = some s := by
  have hc := (objectCount s.mem b).isLt
  obtain ⟨fuel, rfl⟩ : ∃ k, fuel = k + 1 := ⟨fuel - 1, by omega⟩
  have hk : (BitVec.ofNat 32 k).toNat = k :=
    toNat_index (n := (objectCount s.mem b).toNat) (by omega) hc
  induction n generalizing k fuel with
  | zero =>
    rw [imageLoop, hb, if_neg]
    rw [BitVec.lt_def]
    omega
  | succ n ih =>
    have hlt : BitVec.ofNat 32 k < objectCount s.mem b := by
      rw [BitVec.lt_def]
      omega
    obtain ⟨fuel, rfl⟩ : ∃ k, fuel = k + 1 := ⟨fuel - 1, by omega⟩
    rw [imageLoop, hb, if_pos hlt, if_neg (h _ hlt), index_succ]
    exact ih (by omega) fuel (by omega)
      (toNat_index (n := (objectCount s.mem b).toNat) (by omega) hc)

end Image

section Relocate

variable {b : Addr} {s : Machine} {n k : ℕ}

/-- Every object from an index on is relocated once. -/
theorem relocateObjects_once (hb : s.objectList = b) (hcount : (objectCount s.mem b).toNat ≤ 3)
    (hn : k + n = (objectCount s.mem b).toNat) : ∃ s', SamePointers s s' ∧
      SameBut b (8 + 64 * k) 256 s.mem s'.mem ∧
      (∀ j, k ≤ j → j < (objectCount s.mem b).toNat → objectBase s'.mem b (BitVec.ofNat 32 j) =
        objectBase s.mem b (BitVec.ofNat 32 j) + 0xFFFFFFFFC0000000) ∧
      ∀ fuel, n < fuel → relocateObjects fuel (BitVec.ofNat 32 k) s = some s' := by
  have htoNat : ∀ {k : ℕ}, k ≤ 3 → (BitVec.ofNat 32 k).toNat = k :=
    fun hk => toNat_index hk (by decide)
  induction n generalizing k s with
  | zero =>
    refine ⟨s, ⟨rfl, rfl, rfl⟩, SameBut.refl, fun j hj hj' => absurd hj' (by omega), fun fuel hf => ?_⟩
    obtain ⟨fuel, rfl⟩ : ∃ k, fuel = k + 1 := ⟨fuel - 1, by omega⟩
    rw [relocateObjects, hb, if_neg]
    rw [BitVec.lt_def, htoNat (by omega)]
    omega
  | succ n ih =>
    have hk := htoNat (k := k) (by omega)
    obtain ⟨s₁, hs₁⟩ : ∃ s₁, s.write64 .objl (entryOffset (BitVec.ofNat 32 k) + 0)
      (objectBase s.mem b (BitVec.ofNat 32 k) + 0xFFFFFFFFC0000000) = s₁ := ⟨_, rfl⟩
    have hframe : SameBut b (8 + 64 * k) (16 + 64 * k) s.mem s₁.mem := by
      have h := sameBut_field (n := 8) hb (i := BitVec.ofNat 32 k) (by omega) (f := 0) (by decide)
        (by decide) (objectBase s.mem b (BitVec.ofNat 32 k) + 0xFFFFFFFFC0000000)
      rw [show s.write .objl (entryOffset (BitVec.ofNat 32 k) + 0) _ = s₁ from hs₁, hk] at h
      have e0 : (0 : BitVec 32).toNat = 0 := rfl
      exact h.mono (by omega) (by omega)
    have hself : objectBase s₁.mem b (BitVec.ofNat 32 k) =
        objectBase s.mem b (BitVec.ofNat 32 k) + 0xFFFFFFFFC0000000 := by
      have h : readLE s₁.mem (b + (entryOffset (BitVec.ofNat 32 k) + 0)) 8 =
          objectBase s.mem b (BitVec.ofNat 32 k) + 0xFFFFFFFFC0000000 := by
        rw [← hs₁, ← hb]
        exact readLE_write_self (b := .objl) (n := 8) (by decide)
      rwa [add_zero] at h
    have hcount₁ : objectCount s₁.mem b = objectCount s.mem b := by
      have h := hframe.readLE (o := 0) (k := 4) (by decide) (Or.inl (by
        change 0 + 4 ≤ _
        omega))
      rwa [add_zero] at h
    have hb₁ : s₁.objectList = b := by
      rw [← hs₁]
      exact hb
    obtain ⟨s', hsame, hlater, hbase, hrun⟩ := ih hb₁ (by rw [hcount₁]; exact hcount) (k := k + 1)
      (by rw [hcount₁]; omega)
    rw [hcount₁] at hbase
    refine ⟨s', ?_, ?_, fun j hj hj' => ?_, fun fuel hf => ?_⟩
    · rw [← hs₁] at hsame
      exact ⟨hsame.mmap, hsame.objectList, hsame.pinionImage⟩
    · exact (hframe.mono le_rfl (by omega)).trans (hlater.mono (by omega) le_rfl)
    · have hj3 := htoNat (k := j) (by omega)
      rcases Nat.eq_or_lt_of_le hj with rfl | hlt
      · rw [objectBase_same hlater (by omega) (Or.inl (by omega)), hself]
      · rw [hbase j hlt hj', objectBase_same hframe (by omega) (Or.inr (by omega))]
    · obtain ⟨fuel, rfl⟩ : ∃ k, fuel = k + 1 := ⟨fuel - 1, by omega⟩
      have hlt : BitVec.ofNat 32 k < objectCount s.mem b := by
        rw [BitVec.lt_def]
        omega
      rw [add_zero] at hs₁
      rw [relocateObjects, hb, if_pos hlt, hs₁, index_succ, hrun fuel (by omega)]

end Relocate

end Unfold
end Pinion64
