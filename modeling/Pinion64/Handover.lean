import Pinion64.UnfoldInit

/-! unfold's init as a whole: whether it enters long mode, and what it has done by then. -/
namespace Pinion64
open Bytes

namespace Unfold

variable {L : Layout} {m : Memory 32} {mboot magic i : BitVec 32} {s t t' : Machine} {fuel : ℕ}

section TakenOver

/-- The module loop leaves the number of the objects and the image pointer as they are. -/
theorem initModules_count (hb : Separate mboot 52 L.mbootStaticObjl 256)
    (hflag : flags t.mem mboot &&& mbootFlagMods ≠ 0) (h3 : (modsCount t.mem mboot).toNat ≤ 3)
    (hrun : initModules L fuel t mboot = some t') :
    objectCount t'.mem L.mbootStaticObjl = modsCount t.mem mboot ∧
      t'.pinionImage = t.pinionImage := by
  obtain ⟨s₁, hs₁⟩ : ∃ s₁, ({ t with objectList := L.mbootStaticObjl } : Machine).write32 .objl 0
    (modsCount t.mem mboot) = s₁ := ⟨_, rfl⟩
  have hstart : ModState L.mbootStaticObjl t s₁ := hs₁ ▸ initModules_start t _
  have hstable : Stable fun u => ModState L.mbootStaticObjl t u ∧
      SameBut L.mbootStaticObjl 8 256 s₁.mem u.mem ∧ u.pinionImage = s₁.pinionImage := by
    refine ⟨fun v hu hi ho hn => ⟨hu.1.field hi ho hn, hu.2.1.trans ?_, hu.2.2⟩,
      fun hu => ⟨hu.1.sawChar, hu.2⟩⟩
    exact (sameBut_field hu.1.objectList hi ho hn v).mono (by omega) (by omega)
  rw [initModules, if_pos hflag] at hrun
  simp only [hs₁] at hrun
  obtain ⟨-, hframe, himage⟩ := modLoop_stable hstable ⟨hstart, SameBut.refl, rfl⟩
    (fun u hu => by rw [hu.1.block hb]; exact h3) hrun
  refine ⟨?_, by rw [himage, ← hs₁]; rfl⟩
  have hcount := hframe.readLE (o := 0) (k := 4) (by decide) (Or.inl (by decide))
  have hself : readLE s₁.mem (L.mbootStaticObjl + 0) 4 = modsCount t.mem mboot := by
    rw [← hs₁]
    exact readLE_write_self (s := { t with objectList := L.mbootStaticObjl }) (b := .objl) (n := 4)
      (by decide)
  rw [hself, add_zero] at hcount
  exact hcount

/-- What init_multiboot leaves to the rest of init. -/
structure TakenOver (L : Layout) (m : Memory 32) (mboot : Addr) (t : Machine) : Prop where
  mmap : t.mmap = if flags m mboot &&& mbootFlagMmap ≠ 0 then L.mbootStaticMmap else 0
  objectList : t.objectList = if flags m mboot &&& mbootFlagMods ≠ 0 then L.mbootStaticObjl else 0
  pinionImage : t.pinionImage = 0
  regions : flags m mboot &&& mbootFlagMmap ≠ 0 →
    (regionCount t.mem L.mbootStaticMmap).toNat ≤ 15 ∧ mmapTotal t.mem L.mbootStaticMmap =
      ((mapEntries t.mem L.mbootStaticMmap).map Prod.snd).sum
  objects : flags m mboot &&& mbootFlagMods ≠ 0 → (objectCount t.mem L.mbootStaticObjl).toNat ≤ 3

/-- A block that init_multiboot takes over within its buffers. -/
structure Takeable (L : Layout) (m : Memory 32) (mboot : Addr) : Prop where
  outside : Outside L m mboot
  map : flags m mboot &&& mbootFlagMmap ≠ 0 → Records m mboot
  modules : flags m mboot &&& mbootFlagMods ≠ 0 → modsCount m mboot ≤ 3

theorem initMultiboot_takenOver (h : Takeable L m mboot) :
    ∃ t, Returns L (.start m) mboot t ∧ (∀ w ∈ t.writes, w.Fits) ∧ TakenOver L m mboot t := by
  have hfits : ∀ w ∈ (Machine.start m).writes, w.Fits := fun w hw => absurd hw List.not_mem_nil
  obtain ⟨t, n, ht, htfits, hout, hstate⟩ := initMap_total (s := .start m) hfits h.outside h.map
  obtain ⟨-, hobjl₀, himage₀⟩ := initMap_same (ht n le_rfl)
  obtain ⟨hflags, hcount, -, -, -⟩ :=
    block_congr (a := mboot) fun x hx => hout x (h.outside.blockMmap.not_within hx)
  have h3 : flags t.mem mboot &&& mbootFlagMods ≠ 0 → (modsCount t.mem mboot).toNat ≤ 3 := by
    rw [hflags, hcount]
    exact fun hflag => BitVec.le_def.mp (h.modules hflag)
  obtain ⟨t', ⟨hmmap, hout', hfits'⟩, hobjl, hrun⟩ := initModules_total h.outside.blockObjl h3
  have hlast := hrun (2 ^ 32 + 4) (by omega)
  refine ⟨t', ⟨n + (2 ^ 32 + 4), fun fuel hf => ?_⟩, fun w hw => (hfits' w hw).elim (htfits w) id,
    ?_, ?_, ?_, fun hflag => ?_, fun hflag => ?_⟩
  · rw [initMultiboot, ht fuel (by omega), Option.bind_some, hrun fuel (by omega)]
  · rw [hmmap]
    split_ifs with hflag
    · obtain ⟨l, -, -, hl⟩ := hstate hflag
      exact hl.mmap
    · have hstart : initMap L n (.start m) mboot = some (.start m) := if_neg hflag
      rw [ht n le_rfl] at hstart
      rw [Option.some.inj hstart]
      rfl
  · split_ifs with hflag
    · exact hobjl (hflags ▸ hflag)
    · rw [initModules, if_neg (by rw [hflags]; exact hflag)] at hlast
      rw [← Option.some.inj hlast, hobjl₀]
      rfl
  · by_cases hflag : flags t.mem mboot &&& mbootFlagMods ≠ 0
    · rw [(initModules_count h.outside.blockObjl hflag (h3 hflag) hlast).2, himage₀]
      rfl
    · rw [initModules, if_neg hflag] at hlast
      rw [← Option.some.inj hlast, himage₀]
      rfl
  · obtain ⟨l, -, hlen, hl⟩ := hstate hflag
    have hle : (regionCount t.mem L.mbootStaticMmap).toNat ≤ 15 := by
      rw [hl.count]
      exact hlen
    have hsame : ∀ x, Within L.mbootStaticMmap 256 x → t'.mem x = t.mem x :=
      fun x hx => hout' x (L.apart.not_within hx)
    obtain ⟨hentries, htotal⟩ := mapEntries_congr hsame hle
    have hregions : regionCount t'.mem L.mbootStaticMmap = regionCount t.mem L.mbootStaticMmap :=
      readLE_eq_of_within (by decide) fun x hx =>
        hsame x (within_field 8 hx (by decide) (by decide))
    rw [hregions, hentries, htotal, hl.entries]
    exact ⟨hle, hl.total⟩
  · have hflag' : flags t.mem mboot &&& mbootFlagMods ≠ 0 := hflags ▸ hflag
    rw [(initModules_count h.outside.blockObjl hflag' (h3 hflag') hlast).1]
    exact h3 hflag'

theorem Returns.unique (ht : Returns L s mboot t) (ht' : Returns L s mboot t') : t = t' := by
  obtain ⟨n, ht⟩ := ht
  obtain ⟨n', ht'⟩ := ht'
  have heq := ht (max n n') (le_max_left ..)
  rw [ht' (max n n') (le_max_right ..)] at heq
  exact (Option.some.inj heq).symm

theorem Returns.takenOver (ht : Returns L (.start m) mboot t) (h : Takeable L m mboot) :
    TakenOver L m mboot t := by
  obtain ⟨t', ht', -, hto⟩ := initMultiboot_takenOver h
  exact ht.unique ht' ▸ hto

/-- A run whose writes fit has had such a block. -/
theorem Returns.takeable (ht : Returns L (.start m) mboot t) (hfit : ∀ w ∈ t.writes, w.Fits)
    (ho : Outside L m mboot) : Takeable L m mboot := by
  obtain ⟨hmap, hmods⟩ :=
    Returns.fitting (s := .start m) (fun w hw => absurd hw List.not_mem_nil) ho ht hfit
  exact ⟨ho, hmap, hmods⟩

end TakenOver

/-- The checks of load_pinion: an ELF64 binary for AMD64, little-endian. -/
structure IsElf64 (m : Memory 32) (elf : Addr) : Prop where
  mag0 : m elf = 0x7F
  mag1 : m (elf + 1) = 0x45
  mag2 : m (elf + 2) = 0x4C
  mag3 : m (elf + 3) = 0x46
  class64 : m (elf + 4) = 2
  lsb : m (elf + 5) = 1
  amd64 : (readLE m (elf + 18) 2 : BitVec 16) = 62

theorem loadPinion_elf {elf : Addr} (h : IsElf64 m elf) :
    loadPinion fuel m elf = loadPinion64 fuel m elf := by
  rw [loadPinion, if_neg, if_pos ⟨h.class64, h.lsb, h.amd64⟩]
  rintro (hc | hc | hc | hc)
  · exact hc h.mag0
  · exact hc h.mag1
  · exact hc h.mag2
  · exact hc h.mag3

theorem loadPinion_other {elf : Addr} (h : ¬ IsElf64 m elf) : loadPinion fuel m elf = some (m, 0) := by
  rw [loadPinion]
  split_ifs with hmag hclass
  · rfl
  · simp only [not_or, not_not] at hmag
    obtain ⟨h0, h1, h2, h3⟩ := hmag
    exact absurd ⟨h0, h1, h2, h3, hclass.1, hclass.2.1, hclass.2.2⟩ h
  · rfl

section Boot

/-- The address of the image that is the `i`-th object. -/
def imageAddr (t : Machine) (i : BitVec 32) : Addr :=
  (objectBase t.mem t.objectList i).setWidth 32

/-- Everything up to load_pinion goes well, with the `i`-th object as the image. -/
structure Chosen (m : Memory 32) (mboot magic : BitVec 32) (t : Machine) (i : BitVec 32) : Prop where
  magic : magic = 0x2BADB002
  map : flags m mboot &&& mbootFlagMmap ≠ 0
  modules : flags m mboot &&& mbootFlagMods ≠ 0
  image : FirstPinion t.mem t.objectList i
  below : objectBase t.mem t.objectList i < 0x100000000

theorem Chosen.unique {j : BitVec 32} (h : Chosen m mboot magic t i) (h' : Chosen m mboot magic t j) :
    i = j :=
  h.image.unique h'.image

/-- The segments of the image are in place. -/
def ImageLoaded (m m' : Memory 32) (elf : Addr) : Prop :=
  ∀ i, IsLoad m elf i → ∀ k < (header m elf i).pMemsz.toNat,
    m' (BitVec.ofNat 32 (target m elf i + k)) = content m elf i k

/-- Every object lies 0xFFFFFFFFC0000000 higher. -/
def Relocated (m m' : Memory 32) (b : Addr) : Prop :=
  ∀ j < objectCount m b, objectBase m' b j = objectBase m b j + 0xFFFFFFFFC0000000

variable (h : TakenOver L m mboot t)
include h

theorem bootPinion_noMap (hflag : ¬ flags m mboot &&& mbootFlagMmap ≠ 0) :
    bootPinion fuel t = some (t, none) := by
  have hmmap := h.mmap
  rw [if_neg hflag] at hmmap
  rw [bootPinion, initMmap, if_pos hmmap]
  rfl

/-- init_object_list is reached with the memory as init_multiboot has left it. -/
theorem bootPinion_map (hflag : flags m mboot &&& mbootFlagMmap ≠ 0) : ∃ u, SamePointers t u ∧
    u.mem = t.mem ∧ ∀ fuel, 15 < fuel → bootPinion fuel t =
      (initObjectList fuel u).bind fun q =>
        if q.2 ≠ 0 then some (q.1, none)
        else if q.1.pinionImage = 0 then some (q.1, none)
        else if 0x100000000 ≤ imageBase q.1 then some (q.1, none)
        else enterPinion fuel q.1 := by
  have hmmap := h.mmap
  rw [if_pos hflag] at hmmap
  obtain ⟨u, hsame, hmem, hrun⟩ := initMmap_same hmmap L.mmap_ne (h.regions hflag).1
    (h.regions hflag).2
  refine ⟨u, hsame, hmem, fun fuel hf => ?_⟩
  rw [bootPinion, hrun fuel hf]
  rfl

/-- An object of the type is found, and its base decides. -/
theorem bootPinion_image (hmap : flags m mboot &&& mbootFlagMmap ≠ 0)
    (hmods : flags m mboot &&& mbootFlagMods ≠ 0) (himage : FirstPinion t.mem t.objectList i) :
    ∃ u, u.mem = t.mem ∧ u.mmap = L.mbootStaticMmap ∧ u.objectList = L.mbootStaticObjl ∧
      imageBase u = objectBase t.mem t.objectList i ∧ ∀ fuel, 2 ^ 32 < fuel →
        bootPinion fuel t =
          if 0x100000000 ≤ imageBase u then some (u, none) else enterPinion fuel u := by
  obtain ⟨u, hsame, hmem, hrun⟩ := bootPinion_map h hmap
  have hobjl : t.objectList = L.mbootStaticObjl := h.objectList.trans (if_pos hmods)
  have hmmap : t.mmap = L.mbootStaticMmap := h.mmap.trans (if_pos hmap)
  have hu : u.objectList = L.mbootStaticObjl := hsame.objectList.trans hobjl
  rw [hobjl] at himage ⊢
  have h3 : i.toNat < 3 := by
    have hlt := BitVec.lt_def.mp himage.lt
    have hle := h.objects hmods
    omega
  refine ⟨{ u with pinionImage := u.objectList + entryOffset i }, hmem, hsame.mmap.trans hmmap, hu,
    ?_, fun fuel hf => ?_⟩
  · rw [imageBase, hmem, hu, objectBase]
  · have hfirst : imageLoop fuel 0 u = some { u with pinionImage := u.objectList + entryOffset i } :=
      imageLoop_first hu (hmem ▸ himage) (Nat.zero_add _) (lt_trans i.isLt hf)
    have hlist : initObjectList fuel u =
        some ({ u with pinionImage := u.objectList + entryOffset i }, 0) := by
      rw [initObjectList, if_neg (by rw [hu]; exact L.objl_ne), hfirst]
      rfl
    have hne : u.objectList + entryOffset i ≠ 0 := by
      have hoff := entryOffset_toNat h3 (o := 0) (by decide)
      have hbelow := L.objl_below
      rw [add_zero] at hoff
      have e0 : (0 : BitVec 32).toNat = 0 := rfl
      intro hz
      have hnat := congrArg BitVec.toNat hz
      rw [hu, BitVec.toNat_add, hoff] at hnat
      omega
    rw [hrun fuel (by omega), hlist, Option.bind_some, if_neg (not_not.mpr rfl), if_neg hne]

/-- The image that is chosen is handed to load_pinion. -/
theorem bootPinion_chosen (hc : Chosen m mboot magic t i) : ∃ u, u.mem = t.mem ∧
    u.mmap = L.mbootStaticMmap ∧ u.objectList = L.mbootStaticObjl ∧
      imageBase u = objectBase t.mem t.objectList i ∧
      ∀ fuel, 2 ^ 32 < fuel → bootPinion fuel t = enterPinion fuel u := by
  obtain ⟨u, hmem, hmmap, hobjl, hbase, hrun⟩ := bootPinion_image h hc.map hc.modules hc.image
  refine ⟨u, hmem, hmmap, hobjl, hbase, fun fuel hf => ?_⟩
  rw [hrun fuel hf, if_neg]
  rw [hbase]
  exact BitVec.not_le.mpr hc.below

/-- Otherwise init returns. -/
theorem bootPinion_returns (hc : ∀ i, ¬ Chosen m mboot 0x2BADB002 t i) :
    ∃ s', ∀ fuel, 2 ^ 32 < fuel → bootPinion fuel t = some (s', none) := by
  by_cases hmap : flags m mboot &&& mbootFlagMmap ≠ 0
  · obtain ⟨u, hsame, hmem, hrun⟩ := bootPinion_map h hmap
    by_cases hmods : flags m mboot &&& mbootFlagMods ≠ 0
    · have hobjl : t.objectList = L.mbootStaticObjl := h.objectList.trans (if_pos hmods)
      have hu : u.objectList = t.objectList := hsame.objectList
      by_cases hfound : ∃ i, FirstPinion t.mem t.objectList i
      · obtain ⟨i, hi⟩ := hfound
        obtain ⟨u, -, -, -, hbase, hrun⟩ := bootPinion_image h hmap hmods hi
        refine ⟨u, fun fuel hf => ?_⟩
        rw [hrun fuel hf, if_pos]
        rw [hbase]
        exact BitVec.not_lt.mp fun hlt => hc i ⟨rfl, hmap, hmods, hi, hlt⟩
      · refine ⟨u, fun fuel hf => ?_⟩
        have hloop : imageLoop fuel 0 u = some u :=
          imageLoop_none hu (fun j hj ht => hfound (exists_first (hmem ▸ hj) (hmem ▸ ht)))
            (Nat.zero_add _) (lt_trans (objectCount _ _).isLt hf)
        have himage : u.pinionImage = 0 := hsame.pinionImage.trans h.pinionImage
        rw [hrun fuel (by omega), initObjectList, if_neg (by rw [hu, hobjl]; exact L.objl_ne), hloop,
          Option.map_some, Option.bind_some, if_neg (not_not.mpr rfl), if_pos himage]
    · refine ⟨u, fun fuel hf => ?_⟩
      have hu : u.objectList = 0 := hsame.objectList.trans (h.objectList.trans (if_neg hmods))
      rw [hrun fuel (by omega), initObjectList, if_pos hu]
      rfl
  · exact ⟨t, fun fuel _ => bootPinion_noMap h hmap⟩

end Boot

section Enter

variable {u : Machine} (hmmap : u.mmap = L.mbootStaticMmap) (hobjl : u.objectList = L.mbootStaticObjl)
  (h3 : (objectCount u.mem L.mbootStaticObjl).toNat ≤ 3)
include hobjl h3

/-- The objects are relocated in a memory that differs above unfold only. -/
theorem relocate_image (m' : Memory 32) (hlow : ∀ x, x.toNat < 0x200000 → m' x = u.mem x) :
    ∃ s', s'.mmap = u.mmap ∧ s'.objectList = L.mbootStaticObjl ∧
      Relocated u.mem s'.mem L.mbootStaticObjl ∧
      (∀ x, 0x200000 ≤ x.toNat → s'.mem x = m' x) ∧
      ∀ fuel, 3 < fuel → relocateObjects fuel 0 { u with mem := m' } = some s' := by
  have hbelow := L.objl_below
  have hread : ∀ (o : Addr) (n : ℕ), o.toNat + n ≤ 256 →
      readLE m' (L.mbootStaticObjl + o) n = readLE u.mem (L.mbootStaticObjl + o) n := by
    intro o n ho
    refine readLE_eq_of_within (by omega) fun x hx => hlow x ?_
    have hin := within_field o hx ho (by decide)
    rw [Within, BitVec.toNat_sub] at hin
    omega
  have hcount : objectCount m' L.mbootStaticObjl = objectCount u.mem L.mbootStaticObjl := by
    have h := hread 0 4 (by decide)
    rwa [add_zero] at h
  obtain ⟨s', hsame, hframe, hbase, hrun⟩ := relocateObjects_once (s := { u with mem := m' })
    (b := L.mbootStaticObjl) (k := 0) hobjl (by rw [hcount]; exact h3) (Nat.zero_add _)
  rw [hcount] at hbase hrun
  refine ⟨s', hsame.mmap, hsame.objectList.trans hobjl, fun j hj => ?_, fun x hx => ?_,
    fun fuel hf => hrun fuel (by omega)⟩
  · have hj' := BitVec.lt_def.mp hj
    have h := hbase j.toNat (Nat.zero_le _) hj'
    rw [BitVec.ofNat_toNat, BitVec.setWidth_eq] at h
    have hoff := entryOffset_toNat (i := j) (by omega) (o := 0) (by decide)
    have e0 : (0 : BitVec 32).toNat = 0 := rfl
    rw [add_zero] at hoff
    rw [h, objectBase, hread _ _ (by omega)]
    rfl
  · refine hframe x fun hc => ?_
    have hlt := hc.2
    rw [BitVec.toNat_sub] at hlt
    omega

include hmmap

/-- An ELF image is loaded before long mode is entered. -/
theorem enterPinion_elf (helf : IsElf64 u.mem ((imageBase u).setWidth 32))
    (hl : Loadable u.mem ((imageBase u).setWidth 32)) : ∃ s',
      ImageLoaded u.mem s'.mem ((imageBase u).setWidth 32) ∧
      Relocated u.mem s'.mem L.mbootStaticObjl ∧ ∀ fuel, 2 ^ 32 + 2 ^ 16 < fuel →
        enterPinion fuel u = some (s', some
          ⟨(ehdr u.mem ((imageBase u).setWidth 32)).eEntry + pinionBase,
            L.mbootStaticMmap.setWidth 64 + 0xFFFFFFFFC0000000,
            L.mbootStaticObjl.setWidth 64 + 0xFFFFFFFFC0000000⟩) := by
  obtain ⟨elf, he⟩ : ∃ a, (imageBase u).setWidth 32 = a := ⟨_, rfl⟩
  rw [he] at helf hl ⊢
  obtain ⟨s', hmmap', hobjl', hreloc, hhigh, hrun⟩ := relocate_image hobjl h3
    (loaded u.mem elf (ehdr u.mem elf).ePhnum.toNat) fun x hx =>
      loaded_other le_rfl fun i hc => by
        have htarget := hc.2.1
        rw [target] at htarget
        omega
  refine ⟨s', fun i hi k hk => ?_, hreloc, fun fuel hf => ?_⟩
  · have hbelow := hl.below i hi
    rw [hhigh, loaded_byte hl hi hk]
    rw [BitVec.toNat_ofNat, Nat.mod_eq_of_lt (by omega), target]
    omega
  · rw [enterPinion, he, loadPinion_elf helf, loadPinion64_eq hl hf, Option.bind_some,
      hrun fuel (by omega), Option.map_some, hmmap', hmmap, hobjl']

/-- Any other image is not loaded, and long mode is entered at 0. -/
theorem enterPinion_other (helf : ¬ IsElf64 u.mem ((imageBase u).setWidth 32)) : ∃ s',
    ∀ fuel, 3 < fuel → enterPinion fuel u = some (s', some
      ⟨0, L.mbootStaticMmap.setWidth 64 + 0xFFFFFFFFC0000000,
        L.mbootStaticObjl.setWidth 64 + 0xFFFFFFFFC0000000⟩) := by
  obtain ⟨s', hmmap', hobjl', -, -, hrun⟩ := relocate_image hobjl h3 u.mem fun _ _ => rfl
  refine ⟨s', fun fuel hf => ?_⟩
  rw [enterPinion, loadPinion_other helf, Option.bind_some]
  change (relocateObjects fuel 0 { u with mem := u.mem }).map _ = _
  rw [hrun fuel hf, Option.map_some, hmmap', hmmap, hobjl']

end Enter

/-- init comes to an end at a machine, and with a call of init_enter_long or without. -/
def Ends (L : Layout) (s : Machine) (mboot magic : BitVec 32) (s' : Machine) (r : Option EnterLong) :
    Prop :=
  ∃ n, ∀ fuel, n ≤ fuel → init L fuel s mboot magic = some (s', r)

theorem Ends.unique {r r' : Option EnterLong} (h : Ends L s mboot magic t r)
    (h' : Ends L s mboot magic t' r') : r = r' := by
  obtain ⟨n, h⟩ := h
  obtain ⟨n', h'⟩ := h'
  have heq := h (max n n') (le_max_left ..)
  rw [h' (max n n') (le_max_right ..)] at heq
  exact (congrArg Prod.snd (Option.some.inj heq)).symm

/-- Long mode is entered with the image loaded and the objects relocated if everything up to
load_pinion goes well and the image is an ELF64 binary, and init returns otherwise. -/
structure Complete (L : Layout) (m : Memory 32) (mboot magic : BitVec 32) (t s' : Machine)
    (r : Option EnterLong) : Prop where
  enters : ∀ i, Chosen m mboot magic t i → IsElf64 t.mem (imageAddr t i) →
    ImageLoaded t.mem s'.mem (imageAddr t i) ∧ Relocated t.mem s'.mem t.objectList ∧
      r = some ⟨(ehdr t.mem (imageAddr t i)).eEntry + pinionBase,
        L.mbootStaticMmap.setWidth 64 + 0xFFFFFFFFC0000000,
        L.mbootStaticObjl.setWidth 64 + 0xFFFFFFFFC0000000⟩
  returns : (∀ i, Chosen m mboot magic t i → ¬ IsElf64 t.mem (imageAddr t i)) → r = none

section Init

variable (ht : Returns L (.start m) mboot t)
  (hto : TakenOver L m mboot t)
include ht

theorem init_eq : ∃ n, ∀ fuel, n ≤ fuel →
    init L fuel (.start m) mboot 0x2BADB002 = bootPinion fuel t := by
  obtain ⟨n, ht⟩ := ht
  refine ⟨n, fun fuel hf => ?_⟩
  rw [init, if_pos rfl, ht fuel hf, Option.bind_some]

include hto

/-- With another image init enters long mode nevertheless. -/
theorem init_other (hc : Chosen m mboot magic t i) (helf : ¬ IsElf64 t.mem (imageAddr t i)) :
    ∃ s', Ends L (.start m) mboot magic s' (some
      ⟨0, L.mbootStaticMmap.setWidth 64 + 0xFFFFFFFFC0000000,
        L.mbootStaticObjl.setWidth 64 + 0xFFFFFFFFC0000000⟩) := by
  obtain ⟨n, hinit⟩ := init_eq ht
  obtain ⟨u, hmem, hmmap, hobjl, hbase, hrun⟩ := bootPinion_chosen hto hc
  have h3 : (objectCount u.mem L.mbootStaticObjl).toNat ≤ 3 := hmem ▸ hto.objects hc.modules
  obtain ⟨s', henter⟩ := enterPinion_other hmmap hobjl h3 (by rw [hmem, hbase]; exact helf)
  refine ⟨s', n + (2 ^ 32 + 1), fun fuel hf => ?_⟩
  rw [hc.magic, hinit fuel (by omega), hrun fuel (by omega), henter fuel (by omega)]

theorem not_complete (hc : Chosen m mboot magic t i) (helf : ¬ IsElf64 t.mem (imageAddr t i)) :
    ¬ ∃ s' r, Ends L (.start m) mboot magic s' r ∧ Complete L m mboot magic t s' r := by
  rintro ⟨s', r, hends, hcomplete⟩
  obtain ⟨s₁, hends₁⟩ := init_other ht hto hc helf
  have hnone := hcomplete.returns fun j hj => hc.unique hj ▸ helf
  exact Option.some_ne_none _ ((hends₁.unique hends).trans hnone)

theorem init_elf (hc : Chosen m mboot magic t i) (helf : IsElf64 t.mem (imageAddr t i))
    (hl : Loadable t.mem (imageAddr t i)) : ∃ s',
      ImageLoaded t.mem s'.mem (imageAddr t i) ∧ Relocated t.mem s'.mem t.objectList ∧
        Ends L (.start m) mboot magic s' (some
          ⟨(ehdr t.mem (imageAddr t i)).eEntry + pinionBase,
            L.mbootStaticMmap.setWidth 64 + 0xFFFFFFFFC0000000,
            L.mbootStaticObjl.setWidth 64 + 0xFFFFFFFFC0000000⟩) := by
  obtain ⟨n, hinit⟩ := init_eq ht
  obtain ⟨u, hmem, hmmap, hobjl, hbase, hrun⟩ := bootPinion_chosen hto hc
  have h3 : (objectCount u.mem L.mbootStaticObjl).toNat ≤ 3 := hmem ▸ hto.objects hc.modules
  have haddr : (imageBase u).setWidth 32 = imageAddr t i := by rw [hbase, imageAddr]
  obtain ⟨s', hload, hreloc, henter⟩ := enterPinion_elf hmmap hobjl h3
    (by rw [haddr, hmem]; exact helf) (by rw [haddr, hmem]; exact hl)
  rw [haddr, hmem] at hload henter
  rw [hmem, ← hto.objectList.trans (if_pos hc.modules)] at hreloc
  refine ⟨s', hload, hreloc, n + (2 ^ 32 + 2 ^ 16 + 1), fun fuel hf => ?_⟩
  rw [hc.magic, hinit fuel (by omega), hrun fuel (by omega), henter fuel (by omega)]

theorem init_returns (hc : ∀ i, ¬ Chosen m mboot 0x2BADB002 t i) :
    ∃ s', Ends L (.start m) mboot 0x2BADB002 s' none := by
  obtain ⟨n, hinit⟩ := init_eq ht
  obtain ⟨s', hrun⟩ := bootPinion_returns hto hc
  refine ⟨s', n + (2 ^ 32 + 1), fun fuel hf => ?_⟩
  rw [hinit fuel (by omega), hrun fuel (by omega)]

/-- With an ELF64 binary as the image, or without an image, the boot is complete. -/
theorem init_complete (helf : ∀ i, Chosen m mboot 0x2BADB002 t i → IsElf64 t.mem (imageAddr t i))
    (hl : ∀ i, Chosen m mboot 0x2BADB002 t i → IsElf64 t.mem (imageAddr t i) →
      Loadable t.mem (imageAddr t i)) :
    ∃ s' r, Ends L (.start m) mboot 0x2BADB002 s' r ∧ Complete L m mboot 0x2BADB002 t s' r := by
  by_cases hfound : ∃ i, Chosen m mboot 0x2BADB002 t i
  · obtain ⟨i, hc⟩ := hfound
    obtain ⟨s', hload, hreloc, hends⟩ := init_elf ht hto hc (helf i hc) (hl i hc (helf i hc))
    refine ⟨s', _, hends, fun j hj _ => ?_, fun hno => absurd (helf i hc) (hno i hc)⟩
    rw [← hc.unique hj]
    exact ⟨hload, hreloc, rfl⟩
  · have hnot : ∀ i, ¬ Chosen m mboot 0x2BADB002 t i := fun i hi => hfound ⟨i, hi⟩
    obtain ⟨s', hends⟩ := init_returns ht hto hnot
    exact ⟨s', none, hends, fun i hi => absurd hi (hnot i), fun _ => rfl⟩

end Init

/-- With an invalid magic number the block is not looked at. -/
theorem init_invalid (hmagic : ¬ magic = 0x2BADB002) :
    Ends L (.start m) mboot magic (.start m) none ∧
      Complete L m mboot magic t (.start m) none :=
  ⟨⟨0, fun fuel _ => by rw [init, if_neg hmagic]⟩, fun _ hc => absurd hc.magic hmagic, fun _ => rfl⟩

/-- unfold takes a valid block over within its buffers, and hands over only after a complete boot, if
and only if the records and the modules of the block fit and the image that it gets to is an ELF64
binary. -/
theorem handover_exactly (L : Layout) (m : Memory 32) (mboot magic : BitVec 32)
    (ho : magic = 0x2BADB002 → Outside L m mboot)
    (hl : ∀ t, Returns L (.start m) mboot t → ∀ i, Chosen m mboot magic t i →
      IsElf64 t.mem (imageAddr t i) → Loadable t.mem (imageAddr t i)) :
    (∃ t s' r, (magic = 0x2BADB002 → Returns L (.start m) mboot t ∧ ∀ w ∈ t.writes, w.Fits) ∧
        Ends L (.start m) mboot magic s' r ∧ Complete L m mboot magic t s' r) ↔
      (magic = 0x2BADB002 →
        (flags m mboot &&& mbootFlagMmap ≠ 0 → Records m mboot) ∧
        (flags m mboot &&& mbootFlagMods ≠ 0 → modsCount m mboot ≤ 3) ∧
        ∀ t, Returns L (.start m) mboot t → ∀ i, Chosen m mboot magic t i →
          IsElf64 t.mem (imageAddr t i)) := by
  constructor
  · rintro ⟨t, s', r, hblock, hends, hcomplete⟩ hmagic
    obtain ⟨ht, hfit⟩ := hblock hmagic
    have htake := ht.takeable hfit (ho hmagic)
    refine ⟨htake.map, htake.modules, fun t' ht' i hc => ?_⟩
    by_contra helf
    rw [← ht.unique ht'] at hc helf
    exact not_complete ht (ht.takenOver htake) hc helf ⟨s', r, hends, hcomplete⟩
  · intro hfit
    by_cases hmagic : magic = 0x2BADB002
    · obtain ⟨hmap, hmods, helf⟩ := hfit hmagic
      obtain ⟨t, ht, hwrites, hto⟩ := initMultiboot_takenOver ⟨ho hmagic, hmap, hmods⟩
      subst hmagic
      obtain ⟨s', r, hends, hcomplete⟩ := init_complete ht hto (helf t ht) (hl t ht)
      exact ⟨t, s', r, fun _ => ⟨ht, hwrites⟩, hends, hcomplete⟩
    · exact ⟨.start m, .start m, none, fun h => absurd h hmagic, init_invalid hmagic⟩

section Sample

/-- The first of the modules is the image, at 0x1000000, when the map has no record. -/
theorem twoModules_chosen (hl : ModuleList sampleLayout m 0x9000 (twoNames bootConf))
    (hflag : flags m 0x9000 &&& mbootFlagMmap ≠ 0) (hempty : mmapCount m 0x9000 = 0)
    (hcount : modsCount m 0x9000 = 2) (hstart : modStart m (modAddr m 0x9000 0) = 0x1000000)
    (htotal : (readLE m 0x100000 8 : Word) = 0) (hregions : (readLE m 0x100008 8 : Word) = 0) :
    Takeable sampleLayout m 0x9000 ∧ ∃ t, Returns sampleLayout (.start m) 0x9000 t ∧
      (∀ x : Addr, 0x100200 ≤ x.toNat → t.mem x = m x) ∧
      Chosen m 0x9000 0x2BADB002 t 0 ∧ imageAddr t 0 = 0x1000000 := by
  have hwalk : Records m 0x9000 := by
    rw [Records, hempty]
    exact ⟨[], BitVec.lt_irrefl _, Nat.zero_le _⟩
  have htake : Takeable sampleLayout m 0x9000 := by
    refine ⟨⟨by decide, hl.block, fun _ i hi => ?_⟩, fun _ => hwalk, fun _ => hl.count⟩
    rw [hempty] at hi
    exact absurd hi BitVec.not_lt_zero
  -- The map is empty already, so that the zeros of init_multiboot change nothing.
  obtain ⟨t₁, ht₁⟩ : ∃ t₁, (({ Machine.start m with mmap := sampleLayout.mbootStaticMmap } :
    Machine).write64 .mmap 8 0).write64 .mmap 0 0 = t₁ := ⟨_, rfl⟩
  have hmem : t₁.mem = m := by
    have h8 : writeLE (n := 8) m 0x100008 0 = m := by
      conv_rhs => rw [← writeLE_readLE m 0x100008 (n := 8), hregions]
    have h0 : writeLE (n := 8) m 0x100000 0 = m := by
      conv_rhs => rw [← writeLE_readLE m 0x100000 (n := 8), htotal]
    rw [← ht₁]
    change writeLE (n := 8) (writeLE (n := 8) m 0x100008 0) 0x100000 0 = m
    rw [h8, h0]
  have hmap : ∀ fuel, 1 ≤ fuel → initMap sampleLayout fuel (.start m) 0x9000 = some t₁ := by
    intro fuel hf
    obtain ⟨fuel, rfl⟩ : ∃ k, fuel = k + 1 := ⟨fuel - 1, by omega⟩
    have hrun : initMap sampleLayout (fuel + 1) (.start m) 0x9000 =
        mapLoop 0x9000 (fuel + 1) 0 (mmapAddr m 0x9000) t₁ := ht₁ ▸ if_pos hflag
    rw [hrun, mapLoop, if_neg]
    rw [hmem, hempty]
    exact BitVec.lt_irrefl _
  have hl₁ : ModuleList sampleLayout t₁.mem 0x9000 (twoNames bootConf) := hmem.symm ▸ hl
  obtain ⟨t, ⟨-, hout, -⟩, hobjl, hrun⟩ := initModules_total (L := sampleLayout) (t := t₁) hl₁.block
    fun _ => BitVec.le_def.mp hl₁.count
  have hlast : initModules sampleLayout (2 ^ 32 + 4) t₁ 0x9000 = some t := hrun _ (by omega)
  have hb : t.objectList = sampleLayout.mbootStaticObjl := hobjl hl₁.flag
  have hzero : (0 : BitVec 32) < modsCount t₁.mem 0x9000 := by
    rw [hmem, hcount]
    decide
  have hwell : ∀ i < modsCount t₁.mem 0x9000, WellNamed (twoNames bootConf 0) (twoNames bootConf i) := by
    intro i _
    by_cases hi : i = 0
    · rw [hi]
      exact ⟨by decide, by decide, by decide, by decide, by decide⟩
    · have hname : twoNames bootConf i = bootConf := if_neg hi
      rw [hname]
      exact ⟨by decide, by decide, by decide, by decide, by decide⟩
  have hreads : t₁.reads = [] := ht₁ ▸ rfl
  obtain ⟨hentry, -⟩ := initModules_translated hl₁ hreads (by omega) hlast hwell
  obtain ⟨hbase, -, -, htype⟩ := hentry 0 hzero
  have hbase' : objectBase t.mem t.objectList 0 = 0x1000000 := by
    rw [hb, hbase, hmem, hstart]
    rfl
  have hobjects : objectCount t.mem t.objectList = modsCount t₁.mem 0x9000 :=
    hb ▸ (initModules_count hl₁.block hl₁.flag (BitVec.le_def.mp hl₁.count) hlast).1
  refine ⟨htake, t, ⟨2 ^ 32 + 4, fun fuel hf => ?_⟩, fun x hx => ?_, ⟨rfl, hflag, hl.flag, ⟨?_, ?_, ?_⟩,
    ?_⟩, ?_⟩
  · rw [initMultiboot, hmap fuel (by omega), Option.bind_some, hrun fuel (by omega)]
  · rw [hout x, hmem]
    rw [Within, BitVec.toNat_sub]
    have hlt := x.isLt
    change ¬ (2 ^ 32 - 0x100100 + x.toNat) % 2 ^ 32 < 256
    omega
  · exact hobjects ▸ hzero
  · rw [hb]
    exact htype.mpr (by decide)
  · exact fun j hj => absurd hj BitVec.not_lt_zero
  · rw [hbase']
    decide
  · rw [imageAddr, hbase']
    rfl

/-- The segment of the image is in place, and it is entered at its entry point. -/
theorem handover_exactly_sample : ∃ s', s'.mem 0x200001 = 0xBB ∧
    Ends sampleLayout (.start (twoModules 0x48 bootConf sampleBytes)) 0x9000 0x2BADB002 s'
      (some ⟨0xFFFFFFFFC0200010, 0xFFFFFFFFC0100000, 0xFFFFFFFFC0100100⟩) := by
  have hlist : ModuleList sampleLayout (twoModules 0x48 bootConf sampleBytes) 0x9000
      (twoNames bootConf) :=
    twoModules_list (by decide +kernel) (by decide +kernel) (by decide +kernel) (by decide +kernel)
      (by decide +kernel) ⟨by decide +kernel, by decide, by decide +kernel⟩ (by decide)
      (by decide +kernel)
  obtain ⟨htake, t, ht, hsame, hc, haddr⟩ := twoModules_chosen hlist (by decide +kernel)
    (by decide +kernel) (by decide +kernel) (by decide +kernel) (by decide +kernel) (by decide +kernel)
  -- init_multiboot leaves the image as the bootloader has placed it.
  have hkeep : ∀ (a : Addr) (n : ℕ), 0x1000000 ≤ a.toNat → a.toNat + n ≤ 0x1000080 → ∀ x,
      Within a n x → t.mem x = twoModules 0x48 bootConf sampleBytes x := by
    intro a n ha hn x hx
    refine hsame x ?_
    rw [Within, BitVec.toNat_sub] at hx
    have hlt := x.isLt
    omega
  have hehdr : ehdr t.mem 0x1000000 = ⟨0x10, 64, 56, 1⟩ := by
    rw [ehdr_congr (hkeep 0x1000000 64 (by decide) (by decide))]
    decide +kernel
  have hphdr : phdrAddr t.mem 0x1000000 (BitVec.ofNat 32 0) = 0x1000040 := by
    rw [phdrAddr, hehdr]
    rfl
  have hheader : header t.mem 0x1000000 0 = ⟨1, 120, 0, 2, 4⟩ := by
    rw [header, hphdr, phdr_congr (hkeep 0x1000040 56 (by decide) (by decide))]
    decide +kernel
  have hmachine : (readLE t.mem (0x1000000 + 18) 2 : BitVec 16) = 62 := by
    rw [readLE_eq_of_within (by decide) (hkeep (0x1000000 + 18) 2 (by decide) (by decide))]
    decide +kernel
  have helf : IsElf64 t.mem 0x1000000 := by
    refine ⟨?_, ?_, ?_, ?_, ?_, ?_, hmachine⟩
    all_goals
      rw [hsame _ (by decide)]
      decide +kernel
  obtain ⟨t', s', r, hblock, hends, hcomplete⟩ := (handover_exactly sampleLayout
    (twoModules 0x48 bootConf sampleBytes) 0x9000 0x2BADB002 (fun _ => htake.outside)
    fun t' ht' i hi _ => by
      rw [← ht.unique ht'] at hi ⊢
      rw [← hc.unique hi, haddr]
      exact loadable_sample hehdr hheader).mpr fun _ => ⟨htake.map, htake.modules,
        fun t' ht' i hi => by
          rw [← ht.unique ht'] at hi ⊢
          rw [← hc.unique hi, haddr]
          exact helf⟩
  obtain rfl := ht.unique (hblock rfl).1
  obtain ⟨hload, -, hr⟩ := hcomplete.enters 0 hc (haddr.symm ▸ helf)
  rw [haddr] at hload
  rw [haddr, hehdr] at hr
  refine ⟨s', ?_, ?_⟩
  · have hsegment : IsLoad t.mem 0x1000000 0 := by
      rw [IsLoad, hehdr, hheader]
      decide
    have hbyte := hload 0 hsegment 1 (by rw [hheader]; decide)
    rw [target, content, fileAddr, hheader] at hbyte
    exact (hbyte.trans (hsame _ (by decide))).trans (by decide +kernel)
  · rw [hr] at hends
    exact hends

/-- An image of zeros is entered at 0. -/
theorem zero_image_entered :
    (∃ s', Ends sampleLayout (.start (twoModules 0x48 bootConf [])) 0x9000 0x2BADB002 s'
      (some ⟨0, 0xFFFFFFFFC0100000, 0xFFFFFFFFC0100100⟩)) ∧
    ¬ ∃ t s' r, (Returns sampleLayout (.start (twoModules 0x48 bootConf [])) 0x9000 t ∧
        ∀ w ∈ t.writes, w.Fits) ∧
      Ends sampleLayout (.start (twoModules 0x48 bootConf [])) 0x9000 0x2BADB002 s' r ∧
      Complete sampleLayout (twoModules 0x48 bootConf []) 0x9000 0x2BADB002 t s' r := by
  have hl : ModuleList sampleLayout (twoModules 0x48 bootConf []) 0x9000 (twoNames bootConf) :=
    twoModules_list (by decide +kernel) (by decide +kernel) (by decide +kernel) (by decide +kernel)
      (by decide +kernel) ⟨by decide +kernel, by decide, by decide +kernel⟩ (by decide) (by decide)
  obtain ⟨htake, t, ht, hsame, hc, haddr⟩ := twoModules_chosen hl (by decide +kernel)
    (by decide +kernel) (by decide +kernel) (by decide +kernel) (by decide +kernel) (by decide +kernel)
  have helf : ¬ IsElf64 t.mem (imageAddr t 0) := by
    intro helf
    have hmag := helf.mag0
    rw [haddr, hsame _ (by decide)] at hmag
    exact absurd hmag (by decide +kernel)
  have hto := ht.takenOver htake
  refine ⟨init_other ht hto hc helf, ?_⟩
  rintro ⟨t', s', r, ⟨ht', -⟩, hends, hcomplete⟩
  rw [← ht.unique ht'] at hcomplete
  exact not_complete ht hto hc helf ⟨s', r, hends, hcomplete⟩

end Sample

end Unfold
end Pinion64
