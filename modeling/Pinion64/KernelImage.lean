import Pinion64.KernelCopy
import Pinion64.KernelTables

/-! load_kernel as a whole: the kernel images with which it comes to an end, and does nothing that a
malformed image could turn against it. -/
namespace Pinion64
open Bytes

section Consistent

/-- What the entries of a dynamic section say, with the offset of DT_NEEDED. -/
def sectionOf (kernelBase : Ptr) (es : List Dyn) : Dynamic × Word :=
  es.foldl (collect kernelBase) ({}, 0)

variable (v : PageView) (o : Obje) (kernelBase : Ptr) (m : Memory 64)

/-- The image with all of its segments in place. -/
def imageOf : Loader := placed v o m kernelBase (headers o m)

/-- An image whose headers stay in the object, whose segments stay out of it, and whose dynamic section
gives tables that are in the image. -/
structure Consistent : Prop where
  segments : HeadersFit v o m kernelBase
  entry : o.Holds (o.base + 24) 8
  dynamic : dynamicAt o m (headers o m) ≠ 0
  tables : ∃ es, DynListed o m (dynamicAt o m (headers o m)) es ∧
    TablesFit v o kernelBase (imageOf v o kernelBase m)
      (dynamicOf (imageOf v o kernelBase m).mem (sectionOf kernelBase es))
      ((sectionOf kernelBase es).1.str + (sectionOf kernelBase es).2)

end Consistent

variable {v : PageView} {p : Pmm} {apientry : ApiFunction → Word} {k : Config} {objl : Objl}
variable {o : Obje} {kernelBase kernelStack : Word} {m : Memory 64} {i n fuel : ℕ}

section Placed

variable {addr : Ptr} {s : Loader}

theorem mapPages_relocated {j : ℕ} : (mapPages v addr n j s).relocated = s.relocated := by
  induction n generalizing j s with
  | zero => rfl
  | succ n ih => exact ih

theorem placed_relocated : (placed v o m kernelBase n).relocated = [] := by
  induction n with
  | zero => rfl
  | succ n ih =>
    by_cases hs : IsSegment o m n
    · rw [placed_succ hs]
      exact mapPages_relocated.trans ih
    · rw [placed_skip hs]
      exact ih

theorem mapPages_loaded {j : ℕ} : (mapPages v addr n j s).loaded = s.loaded := by
  induction n generalizing j s with
  | zero => rfl
  | succ n ih => exact ih

/-- The segment of a header is loaded for good. -/
theorem placed_loaded {j : ℕ} (hj : j < n) (hs : IsSegment o m j) :
    (kernelBase + (Phdr.read m (headerAt o m j)).pVaddr,
      (Phdr.read m (headerAt o m j)).pMemsz.toNat) ∈ (placed v o m kernelBase n).loaded := by
  induction n, hj using Nat.le_induction with
  | base =>
    rw [placed_succ hs]
    exact List.mem_cons_self
  | succ n _ ih =>
    by_cases hn : IsSegment o m n
    · rw [placed_succ hn]
      refine List.mem_cons_of_mem _ ?_
      rw [mapWhole, mapPages_loaded]
      exact ih
    · rw [placed_skip hn]
      exact ih

end Placed

/-- The run from the magic number on. -/
theorem loadKernel_eq (himage : kernelImage k objl = some (.entry i))
    (hbase : configReadAsPtr k (bytes "loader") (bytes "base") 0xFFFFFFFF00000000 = some kernelBase)
    (hstack : configReadAsPtr k (bytes "loader") (bytes "stack") 0xFFFFFFFF80000000 =
      some kernelStack)
    (hmagic : Matches m (objl.entry i).base elfMagic) :
    loadKernel v p apientry fuel k objl m =
      if (objl.entry i).Holds (objl.entry i).base (matchReads m (objl.entry i).base elfMagic) then
        (loadHeaders v (objl.entry i) kernelBase fuel 0 0 ⟨m, 0, [], [], []⟩).bind fun q =>
          (q.2.fixupKernel v p apientry (objl.entry i) kernelBase fuel q.1).bind fun s =>
            if (objl.entry i).Holds ((objl.entry i).base + 24) 8 then
              some (.entered (s.pcxSetFrame v (kernelStack - 0x1000)) (kernelBase +
                (Ehdr.read (s.pcxSetFrame v (kernelStack - 0x1000)).mem (objl.entry i).base).eEntry)
                kernelStack)
            else none
      else none := by
  simp only [loadKernel, himage, hbase, hstack, Option.bind_eq_bind, Option.bind_some, guard_then,
    if_pos hmagic]

/-- An object that has a number of program headers has a magic number. -/
theorem Obje.Holds.ident (h : o.Holds (o.base + 56) 2) : o.Holds o.base 4 := by
  have h56 : o.base + 56 - o.base = 56 := add_sub_cancel_left _ _
  rw [Obje.Holds, h56] at h
  have h58 := h.resolve_left (by decide)
  change 56 + 2 ≤ o.size.toNat at h58
  refine Or.inr ?_
  rw [sub_self]
  change 0 + 4 ≤ o.size.toNat
  omega

section Complete

variable (himage : kernelImage k objl = some (.entry i))
  (hbase : configReadAsPtr k (bytes "loader") (bytes "base") 0xFFFFFFFF00000000 = some kernelBase)
  (hstack : configReadAsPtr k (bytes "loader") (bytes "stack") 0xFFFFFFFF80000000 = some kernelStack)
  (hmagic : Matches m (objl.entry i).base elfMagic)
include himage hbase hstack hmagic

theorem loadKernel_completes (h : Consistent v (objl.entry i) kernelBase m) :
    ∃ n r, ∀ fuel, n ≤ fuel → loadKernel v p apientry fuel k objl m = some r := by
  obtain ⟨hseg, hentry, hdynamic, es, hes, htables⟩ := h
  have hk : (imageOf v (objl.entry i) kernelBase m).Keeps (objl.entry i) m := placed_keeps hseg.header
  have hreads : matchReads m (objl.entry i).base elfMagic = 4 := by
    obtain ⟨h0, h1, h2, h3, -⟩ := hmagic
    simp only [elfMagic, matchReads, if_pos h0, if_pos h1, if_pos h2, if_pos h3]
  have hholds : (objl.entry i).Holds (objl.entry i).base 4 := hseg.phnum.ident
  obtain ⟨t, l, hfix⟩ := fixupKernel_returns hk placed_relocated p apientry
    hdynamic hes rfl htables
  refine ⟨2 ^ 52 + headers (objl.entry i) m + l + 1, .entered (t.pcxSetFrame v (kernelStack - 0x1000))
    (kernelBase + (Ehdr.read (t.pcxSetFrame v (kernelStack - 0x1000)).mem
      (objl.entry i).base).eEntry) kernelStack, fun fuel hf => ?_⟩
  have hfix' := hfix fuel (by omega)
  rw [loadKernel_eq himage hbase hstack hmagic, hreads, if_pos hholds,
    (loadHeaders_spec (by omega)).1 hseg, Option.bind_some]
  dsimp only
  rw [← imageOf, hfix', Option.bind_some, if_pos hentry]

theorem loadKernel_consistent {r : LoadEnd} (hf : 2 ^ 52 + headers (objl.entry i) m < fuel)
    (h : loadKernel v p apientry fuel k objl m = some r) :
    Consistent v (objl.entry i) kernelBase m := by
  rw [loadKernel_eq himage hbase hstack hmagic] at h
  obtain ⟨-, h⟩ := Option.ite_none_right_eq_some.mp h
  have hseg : HeadersFit v (objl.entry i) m kernelBase := by
    by_contra hno
    rw [(loadHeaders_spec hf).2 hno] at h
    cases h
  have hk : (imageOf v (objl.entry i) kernelBase m).Keeps (objl.entry i) m := placed_keeps hseg.header
  rw [(loadHeaders_spec hf).1 hseg, Option.bind_some] at h
  obtain ⟨s, hfix, h⟩ := Option.bind_eq_some_iff.mp h
  obtain ⟨hentry, -⟩ := Option.ite_none_right_eq_some.mp h
  obtain ⟨hdynamic, es, c, hes, rfl, htables⟩ := fixupKernel_tables hk placed_relocated hfix
  exact ⟨hseg, hentry, hdynamic, es, hes, htables⟩

end Complete

/-- load_kernel comes to an end, with nothing read but the object and what has been loaded of it, if
and only if the image is consistent. -/
theorem load_kernel_exactly (v : PageView) (p : Pmm) (apientry : ApiFunction → Word) (k : Config)
    (objl : Objl) (m : Memory 64) (i : ℕ) (kernelBase kernelStack : Word)
    (himage : kernelImage k objl = some (.entry i))
    (hbase : configReadAsPtr k (bytes "loader") (bytes "base") 0xFFFFFFFF00000000 = some kernelBase)
    (hstack : configReadAsPtr k (bytes "loader") (bytes "stack") 0xFFFFFFFF80000000 =
      some kernelStack)
    (hmagic : Matches m (objl.entry i).base elfMagic) :
    (∃ n r, ∀ fuel, n ≤ fuel → loadKernel v p apientry fuel k objl m = some r) ↔
      Consistent v (objl.entry i) kernelBase m := by
  constructor
  · rintro ⟨n, r, hrun⟩
    have hlast := hrun (n + (2 ^ 52 + headers (objl.entry i) m + 1)) (by omega)
    exact loadKernel_consistent himage hbase hstack hmagic (by omega) hlast
  · exact loadKernel_completes himage hbase hstack hmagic

section Sample

/-- An image with a single segment, of type PT_DYNAMIC: a dynamic section, the API string, one
R_X86_64_RELATIVE entry of DT_JMPREL, and a word for it. -/
def sampleKernel (relent : BitVec 8) : Memory 64 := fun x =>
  ([0x7F, 0x45, 0x4C, 0x46, 0, 0, 0, 0, 0, 0, 0, 0, 0, 0, 0, 0, 0, 0, 0, 0, 0, 0, 0, 0, 0, 0x20,
    0, 0, 0, 0, 0, 0, 0x40, 0, 0, 0, 0, 0, 0, 0, 0, 0, 0, 0, 0, 0, 0, 0, 0, 0, 0, 0, 0x40, 0,
    0x38, 0, 1, 0, 0, 0, 0, 0, 0, 0, 2, 0, 0, 0, 0, 0, 0, 0, 0x78, 0, 0, 0, 0, 0, 0, 0, 0, 0x20,
    0, 0, 0, 0, 0, 0, 0, 0, 0, 0, 0, 0, 0, 0, 0x80, 0, 0, 0, 0, 0, 0, 0, 0x88, 0, 0, 0, 0, 0, 0,
    0, 0, 0, 0, 0, 0, 0, 0, 0, 5, 0, 0, 0, 0, 0, 0, 0, 0x50, 0x20, 0, 0, 0, 0, 0, 0, 0x17, 0, 0,
    0, 0, 0, 0, 0, 0x68, 0x20, 0, 0, 0, 0, 0, 0, 2, 0, 0, 0, 0, 0, 0, 0, 0x18, 0, 0, 0, 0, 0, 0,
    0, 9, 0, 0, 0, 0, 0, 0, 0, relent, 0, 0, 0, 0, 0, 0, 0, 0, 0, 0, 0, 0, 0, 0, 0, 0, 0, 0, 0,
    0, 0, 0, 0, 0x6C, 0x69, 0x62, 0x70, 0x69, 0x6E, 0x69, 0x6F, 0x6E, 0x2E, 0x73, 0x6F, 0x2E,
    0x30, 0x2E, 0x31, 0, 0, 0, 0, 0, 0, 0, 0, 0x80, 0x20, 0, 0, 0, 0, 0, 0, 8, 0, 0, 0, 0, 0, 0,
    0, 0, 0, 0, 0, 0, 0, 0, 0] :
    List (BitVec 8)).getD (x - 0xFFFFFFFFC1000000).toNat 0

def sampleSection (relent : Word) : List Dyn := [⟨5, 0x2050⟩, ⟨23, 0x2068⟩, ⟨2, 24⟩, ⟨9, relent⟩]

section Read

variable {relent : BitVec 8} (h : relent = 24 ∨ relent = 0)
include h

theorem sampleKernel_header : Matches (sampleKernel relent) sampleObje.base elfMagic ∧
    headers sampleObje (sampleKernel relent) = 1 ∧
    headerAt sampleObje (sampleKernel relent) 0 = 0xFFFFFFFFC1000040 ∧
    Phdr.read (sampleKernel relent) 0xFFFFFFFFC1000040 = ⟨2, 120, 0x2000, 0x80, 0x88⟩ := by
  rcases h with rfl | rfl
  · decide +kernel
  · decide +kernel

theorem sampleKernel_isSegment : IsSegment sampleObje (sampleKernel relent) 0 := by
  obtain ⟨-, -, hat, hread⟩ := sampleKernel_header h
  rw [IsSegment, hat, hread]
  exact Or.inr rfl

theorem sampleKernel_dynamic : dynamicAt sampleObje (sampleKernel relent)
    (headers sampleObje (sampleKernel relent)) = 0xFFFFFFFFC1000078 := by
  obtain ⟨-, hcount, hat, hread⟩ := sampleKernel_header h
  rw [hcount, dynamicAt, hat, hread]
  rfl

theorem sampleKernel_listed : DynListed sampleObje (sampleKernel relent) 0xFFFFFFFFC1000078
    (sampleSection (relent.setWidth 64)) := by
  rcases h with rfl | rfl
  · decide +kernel
  · decide +kernel

end Read

/-- The page of the segment. -/
theorem sampleKernel_frame (s : Loader) : 0xFFFFFFFF00002000 ∈
    (mapWhole sampleView 0xFFFFFFFF00000000 ⟨2, 120, 0x2000, 0x80, 0x88⟩ s).frames :=
  mem_mapPages_frames.mpr (Or.inr ⟨0, le_rfl, by decide, by decide, rfl⟩)

theorem sampleKernel_segments :
    HeadersFit sampleView sampleObje (sampleKernel 24) 0xFFFFFFFF00000000 := by
  obtain ⟨-, hcount, hat, hread⟩ := sampleKernel_header (Or.inl rfl)
  refine ⟨by decide, fun _ => by decide, fun i hi => ?_⟩
  obtain rfl : i = 0 := by omega
  refine ⟨by rw [hat]; decide, fun _ => ⟨by rw [hat]; decide, by rw [hat]; decide, ?_⟩⟩
  rw [hat, hread]
  refine ⟨by decide, fun i _ hi => ?_, by decide, ⟨by decide, ?_⟩, by decide, by decide, ?_⟩
  · obtain rfl : i = 0 := by
      change 0x1000 * i < 0x88 at hi
      omega
    exact Or.inr (by decide)
  · exact .of_frame (sampleKernel_frame _) (by decide +kernel) (by decide)
  · exact .of_frame (sampleKernel_frame _) (by decide +kernel) (by decide)

/-- The image with its one segment in place. -/
def sampleLoaded : Loader := imageOf sampleView sampleObje 0xFFFFFFFF00000000 (sampleKernel 24)

/-- What the dynamic section of the image says. -/
def sampleDynamicOf : Dynamic :=
  dynamicOf sampleLoaded.mem (sectionOf 0xFFFFFFFF00000000 (sampleSection 24))

section Loaded

theorem sampleLoaded_loaded : (0xFFFFFFFF00002000, 0x88) ∈ sampleLoaded.loaded := by
  obtain ⟨-, hcount, hat, hread⟩ := sampleKernel_header (Or.inl rfl)
  have hpos : 0 < headers sampleObje (sampleKernel 24) := hcount ▸ Nat.one_pos
  have hloaded := @placed_loaded sampleView sampleObje 0xFFFFFFFF00000000 (sampleKernel 24) _ 0
    hpos (sampleKernel_isSegment (Or.inl rfl))
  rw [hat, hread] at hloaded
  exact hloaded

theorem sampleLoaded_frame : 0xFFFFFFFF00002000 ∈ sampleLoaded.frames := by
  obtain ⟨-, hcount, hat, hread⟩ := sampleKernel_header (Or.inl rfl)
  refine @placed_frames _ _ _ _ (0 + 1) _ _ ?_ (by rw [hcount])
  rw [placed_succ (sampleKernel_isSegment (Or.inl rfl)), hat, hread]
  exact sampleKernel_frame _

/-- What is shown of the image before the first relocation. -/
theorem sampleLoaded_shows {a : Ptr} {n : ℕ} (h : (a - 0xFFFFFFFF00002000).toNat + n ≤ 0x88) :
    sampleLoaded.Shows sampleObje a n :=
  Loader.Shows.of_loaded placed_relocated sampleLoaded_loaded h

end Loaded

theorem sampleKernel_entry : EntryShows sampleView sampleObje 0xFFFFFFFF00000000 sampleDynamicOf
    (imageAt 0xFFFFFFFF00000000 sampleDynamicOf sampleLoaded 0) 0xFFFFFFFF00002068 := by
  have hagrees : sampleLoaded.Agrees (imageAt 0xFFFFFFFF00000000 sampleDynamicOf sampleLoaded 0) :=
    agrees_first placed_relocated
  have hshows : ∀ {a : Ptr} {n : ℕ}, (a - 0xFFFFFFFF00002000).toNat + n ≤ 0x88 →
      (imageAt 0xFFFFFFFF00000000 sampleDynamicOf sampleLoaded 0).Shows sampleObje a n :=
    fun h => hagrees.shows.mp (sampleLoaded_shows h)
  obtain ⟨htype, htarget⟩ : (Rela.read sampleLoaded.mem 0xFFFFFFFF00002068).rType = 8 ∧
      relaTarget 0xFFFFFFFF00000000 sampleLoaded.mem 0xFFFFFFFF00002068 = 0xFFFFFFFF00002080 := by
    decide +kernel
  refine ⟨hshows (by decide), fun h7 => ?_, fun _ => ⟨hshows (by decide), hshows (by decide)⟩,
    fun _ => hagrees.writable.mp ?_⟩
  · exact absurd (htype.symm.trans h7) (by decide)
  · change sampleLoaded.Writable sampleView
      (relaTarget 0xFFFFFFFF00000000 sampleLoaded.mem 0xFFFFFFFF00002068) 8
    rw [htarget]
    exact .of_frame sampleLoaded_frame (by decide +kernel) (by decide)

theorem sampleKernel_tables : TablesFit sampleView sampleObje 0xFFFFFFFF00000000 sampleLoaded
    sampleDynamicOf 0xFFFFFFFF00002050 := by
  obtain ⟨hmatches, hreads⟩ : Matches sampleLoaded.mem 0xFFFFFFFF00002050 Loader.apiString ∧
      matchReads sampleLoaded.mem 0xFFFFFFFF00002050 Loader.apiString = 13 := by
    decide +kernel
  obtain ⟨hstr, hrelent, hsize⟩ : sampleDynamicOf.str ≠ 0 ∧ sampleDynamicOf.relent = 24 ∧
      sampleDynamicOf.jmprelsz = 24 := by
    decide +kernel
  refine ⟨hstr, ?_, fun hno => absurd hmatches hno, ?_, fun _ => ?_⟩
  · rw [hreads]
    exact sampleLoaded_shows (by decide)
  · exact ⟨sampleLoaded_shows (by decide), sampleLoaded_shows (by decide)⟩
  · refine ⟨by rw [hrelent]; decide, 1, ⟨fun j hj => ?_, ?_⟩, fun j hj => ?_⟩
    · obtain rfl : j = 0 := by omega
      rw [hrelent, hsize]
      decide
    · rw [hrelent, hsize]
      decide
    · obtain rfl : j = 0 := by omega
      exact sampleKernel_entry

theorem sampleKernel_consistent :
    Consistent sampleView sampleObje 0xFFFFFFFF00000000 (sampleKernel 24) where
  segments := sampleKernel_segments
  entry := by decide
  dynamic := by
    rw [sampleKernel_dynamic (Or.inl rfl)]
    decide
  tables := by
    have hneeded : (sectionOf 0xFFFFFFFF00000000 (sampleSection 24)).1.str +
        (sectionOf 0xFFFFFFFF00000000 (sampleSection 24)).2 = 0xFFFFFFFF00002050 := by decide +kernel
    rw [sampleKernel_dynamic (Or.inl rfl)]
    refine ⟨sampleSection 24, sampleKernel_listed (Or.inl rfl), ?_⟩
    rw [hneeded]
    exact sampleKernel_tables

/-- What the configuration says of the image and of its place. -/
theorem sampleConfig : kernelImage imageConfig (sampleObjl ["kernel64"]) = some (.entry 0) ∧
    configReadAsPtr imageConfig (bytes "loader") (bytes "base") 0xFFFFFFFF00000000 =
      some 0xFFFFFFFF00000000 ∧
    configReadAsPtr imageConfig (bytes "loader") (bytes "stack") 0xFFFFFFFF80000000 =
      some 0xFFFFFFFF80000000 := by
  decide +kernel

/-- The image is loaded. -/
theorem load_kernel_exactly_sample : ∃ n r, ∀ fuel, n ≤ fuel →
    loadKernel sampleView ⟨base, 0, 0⟩ (fun _ => 0x4000) fuel imageConfig (sampleObjl ["kernel64"])
      (sampleKernel 24) = some r :=
  (load_kernel_exactly sampleView ⟨base, 0, 0⟩ (fun _ => 0x4000) imageConfig (sampleObjl ["kernel64"])
    (sampleKernel 24) 0 0xFFFFFFFF00000000 0xFFFFFFFF80000000 sampleConfig.1 sampleConfig.2.1
    sampleConfig.2.2 (sampleKernel_header (Or.inl rfl)).1).mpr sampleKernel_consistent

/-- With a DT_RELAENT of 0 the same image passes the check of its magic number, and is not loaded. -/
theorem zero_relent_not_loaded : Matches (sampleKernel 0) sampleObje.base elfMagic ∧
    ¬ ∃ n r, ∀ fuel, n ≤ fuel → loadKernel sampleView ⟨base, 0, 0⟩ (fun _ => 0x4000) fuel imageConfig
      (sampleObjl ["kernel64"]) (sampleKernel 0) = some r := by
  have hmagic := (@sampleKernel_header 0 (Or.inr rfl)).1
  refine ⟨hmagic, fun ⟨n, r, hrun⟩ => ?_⟩
  have hfuel : 2 ^ 52 + headers sampleObje (sampleKernel 0) <
      n + (2 ^ 52 + headers sampleObje (sampleKernel 0) + 1) := by omega
  have h : Consistent sampleView sampleObje 0xFFFFFFFF00000000 (sampleKernel 0) :=
    loadKernel_consistent sampleConfig.1 sampleConfig.2.1 sampleConfig.2.2 hmagic hfuel
      (hrun _ (Nat.le_add_right _ _))
  obtain ⟨es, hes, htables⟩ := h.tables
  rw [sampleKernel_dynamic (Or.inr rfl)] at hes
  obtain rfl := hes.unique (sampleKernel_listed (Or.inr rfl))
  obtain ⟨hjmprel, hrelent⟩ : (sectionOf 0xFFFFFFFF00000000 (sampleSection 0)).1.jmprel ≠ 0 ∧
      (sectionOf 0xFFFFFFFF00000000 (sampleSection 0)).1.relent = 0 := by
    decide +kernel
  exact (htables.entries hjmprel).1 hrelent

end Sample

end Pinion64
