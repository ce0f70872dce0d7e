import Pinion64.FreeRam
import Mathlib.Data.List.GetD

/-! The memory map that the kernel reads, against what pinion.h promises of it. -/
namespace Pinion64

section Read

/-- A kernel reads the map from index `i` on, for at most `n` indices, up to the null region. -/
def readMap (high : PmmMap 8) : ℕ → ℕ → Option (List MapRegion)
  | 0, _ => some []
  | n+1, i =>
    match apilogicMemoryMapRead high (BitVec.ofNat 8 i) with
    | none => none
    | some r => if r = ⟨0, 0⟩ then some [] else (readMap high n (i+1)).map (r :: ·)

/-- The region that is reported for an entry. -/
def MapEntry.region (e : MapEntry) : MapRegion := ⟨e.base, e.size + e.base⟩

theorem region_eq_null_iff (e : MapEntry) : e.region = ⟨0, 0⟩ ↔ e = ⟨0, 0⟩ := by
  obtain ⟨base, size⟩ := e
  simp only [MapEntry.region, MapRegion.mk.injEq, MapEntry.mk.injEq]
  refine and_congr_right fun h => ?_
  rw [h, BitVec.ofNat_eq_ofNat, BitVec.add_zero]

variable {mmap : UnfoldMmap} {im : PinionImage} {st : PmmState}

theorem read_of_lt (h : Initialized mmap im st) {k : ℕ} (hk : k < 8) :
    apilogicMemoryMapRead st.pmmMapHigh (BitVec.ofNat 8 k) =
      some ((highEntries (mapCutoff mmap.total) mmap.entry).getD k ⟨0, 0⟩).region := by
  have hi : (BitVec.ofNat 8 k).toNat = k := by
    rw [BitVec.toNat_ofNat]
    omega
  rw [apilogicMemoryMapRead, pmmGetHighMemoryMap, hi]
  split_ifs with hc
  · have hnone : (highEntries (mapCutoff mmap.total) mmap.entry).length ≤ k := by
      rcases h.count with he | ⟨he, -⟩
      · omega
      · simp [he]
    rw [List.getD_eq_default _ _ hnone]
    rfl
  · rw [h.entry ⟨k, hk⟩]
    rfl

/-- A full table has no entry behind the last one to end it. -/
theorem read_of_eq (h : Initialized mmap im st)
    (hl : (highEntries (mapCutoff mmap.total) mmap.entry).length = 8) :
    apilogicMemoryMapRead st.pmmMapHigh (BitVec.ofNat 8 8) = none := by
  have hc : st.pmmMapHigh.count = 8 := by
    rcases h.count with he | ⟨he, -⟩
    · omega
    · simp [he] at hl
  simp [apilogicMemoryMapRead, pmmGetHighMemoryMap, hc]

/-- The kernel reads the entries up to the first null one, if there is one to stop at. -/
theorem readMap_spec (h : Initialized mmap im st) (l : List MapEntry) {i n : ℕ}
    (hi : i + l.length ≤ 8) (hl : (highEntries (mapCutoff mmap.total) mmap.entry).drop i = l)
    (hlen : (highEntries (mapCutoff mmap.total) mmap.entry).length = i + l.length)
    (hn : 8 < i + n) :
    readMap st.pmmMapHigh n i = if i + (l.takeWhile (· ≠ ⟨0, 0⟩)).length < 8 then
      some ((l.takeWhile (· ≠ ⟨0, 0⟩)).map MapEntry.region) else none := by
  induction l generalizing i n with
  | nil =>
    obtain ⟨n, rfl⟩ := Nat.exists_eq_succ_of_ne_zero (show n ≠ 0 by simp at hi; omega)
    simp only [List.length_nil, Nat.add_zero, List.takeWhile_nil, List.map_nil] at *
    rw [readMap]
    split_ifs with hlt
    · rw [read_of_lt h hlt, List.getD_eq_default _ _ (by omega)]
      rfl
    · obtain rfl : i = 8 := by omega
      rw [read_of_eq h hlen]
  | cons r l ih =>
    simp only [List.length_cons] at hi hlen
    obtain ⟨n, rfl⟩ := Nat.exists_eq_succ_of_ne_zero (show n ≠ 0 by omega)
    have hr : (highEntries (mapCutoff mmap.total) mmap.entry).getD i ⟨0, 0⟩ = r := by
      rw [List.getD_eq_getElem?_getD, ← List.head?_drop, hl]
      rfl
    have hl' : (highEntries (mapCutoff mmap.total) mmap.entry).drop (i+1) = l := by
      rw [← List.tail_drop, hl, List.tail_cons]
    rw [readMap, read_of_lt h (by omega), hr]
    dsimp only
    by_cases hz : r = ⟨0, 0⟩
    · rw [if_pos ((region_eq_null_iff r).mpr hz), List.takeWhile_cons_of_neg (by simpa using hz),
        if_pos (by simp; omega)]
      rfl
    · rw [if_neg fun hc => hz ((region_eq_null_iff r).mp hc),
        ih (by omega) hl' (by omega) (by omega), List.takeWhile_cons_of_pos (by simpa using hz),
        List.length_cons, List.map_cons, show i + 1 = 1 + i from Nat.add_comm ..]
      split_ifs <;> first | rfl | omega

end Read

section Promise

def MapEntry.Has (e : MapEntry) (x : ℕ) : Prop :=
  e.base.toNat ≤ x ∧ x < e.base.toNat + e.size.toNat

def MapRegion.Has (r : MapRegion) (x : ℕ) : Prop := r.base.toNat ≤ x ∧ x < r.limit.toNat

def MapRegion.span (r : MapRegion) : ℕ × ℕ := (r.base.toNat, r.limit.toNat)

/-- There is a page between the two spans. -/
def Gap (s t : ℕ × ℕ) : Prop := s.2 + 4096 ≤ t.1 ∨ t.2 + 4096 ≤ s.1

def PageSpan (s : ℕ × ℕ) : Prop := s.1 % 4096 = 0 ∧ s.2 % 4096 = 0

/-- What pinion.h says about the regions of the map, for a map that was made from `mmap`. -/
structure MapPromise (mmap : UnfoldMmap) (st : PmmState) (l : List MapRegion) : Prop where
  aligned : ∀ r ∈ l, PageSpan r.span
  free : ∀ r ∈ l, ∀ x, r.Has x → ∃ e ∈ mmap.entry, e.Has x
  spared : ∀ r ∈ l, ∀ x : Word, r.Has x.toNat → ¬ st.pmm.Walks x
  disjoint : l.Pairwise fun r s => ∀ x, r.Has x → ¬ s.Has x
  separated : l.Pairwise fun r s => Gap r.span s.span

/-- The map can be read to its end and is as promised. -/
def KeepsPromise (mmap : UnfoldMmap) (im : PinionImage) : Prop :=
  ∃ st l, pmmInit mmap im = some st ∧ readMap st.pmmMapHigh 256 0 = some l ∧ MapPromise mmap st l

/-- The span is empty or lies outside of what is walked from `a` to `c`, which goes around the
end of the address space if `c` is below `a`. -/
def Apart (a c : ℕ) (s : ℕ × ℕ) : Prop :=
  s.2 ≤ s.1 ∨ if a ≤ c then a = c ∨ s.2 ≤ a ∨ c ≤ s.1 else c ≤ s.1 ∧ s.2 ≤ a

/-- The spans of the entries from the first one on that does not end below the cutoff, up to an
entry that is null. Only the first of them is cut. -/
def kernelSpans (cutoff : Word) (l : List MapEntry) : List (ℕ × ℕ) :=
  match (l.dropWhile (·.Low cutoff)).takeWhile (· ≠ ⟨0, 0⟩) with
  | [] => []
  | r :: l => (max r.base.toNat cutoff.toNat, r.base.toNat + r.size.toNat) ::
      l.map fun r => (r.base.toNat, r.base.toNat + r.size.toNat)

/-- A boot map whose kernel part can be handed over as it is. -/
structure KernelShare (mmap : UnfoldMmap) (im : PinionImage) : Prop where
  low : lowEntries (mapCutoff mmap.total) mmap.entry ≤ 3
  high : (mmap.entry.dropWhile (·.Low (mapCutoff mmap.total))).length ≤ 8
  ended : (kernelSpans (mapCutoff mmap.total) mmap.entry).length < 8
  aligned : ∀ s ∈ kernelSpans (mapCutoff mmap.total) mmap.entry, PageSpan s
  apart : ∀ s ∈ kernelSpans (mapCutoff mmap.total) mmap.entry,
    Apart im.end (mapCutoff mmap.total).toNat s
  separated : (kernelSpans (mapCutoff mmap.total) mmap.entry).Pairwise Gap

end Promise

section Spans

variable {cutoff : Word} {r : MapEntry} {l : List MapEntry}

theorem highEntries_eq (cutoff : Word) (l : List MapEntry) : highEntries cutoff l =
    match l.dropWhile (·.Low cutoff) with
    | [] => []
    | r :: l => r.clip cutoff :: l := by
  induction l with
  | nil => rfl
  | cons r l ih =>
    by_cases h : r.Low cutoff
    · rw [highEntries, if_pos h, ih, List.dropWhile_cons_of_pos (by simpa using h)]
    · rw [highEntries, if_neg h, List.dropWhile_cons_of_neg (by simpa using h)]

theorem highEntries_length (cutoff : Word) (l : List MapEntry) :
    (highEntries cutoff l).length = (l.dropWhile (·.Low cutoff)).length := by
  rw [highEntries_eq]
  split <;> rename_i h <;> simp [h]

/-- The cut of an entry reaches to its end. -/
theorem clip_span (cutoff : Word) (hb : r.base.toNat + r.size.toNat < 2 ^ 64) :
    (r.clip cutoff).region.span =
      (max r.base.toNat cutoff.toNat, r.base.toNat + r.size.toNat) := by
  have hsum : (r.size + r.base).toNat = r.base.toNat + r.size.toNat := by
    rw [BitVec.toNat_add, Nat.mod_eq_of_lt (by omega), Nat.add_comm]
  unfold MapEntry.clip
  split_ifs with hlt
  · rw [BitVec.lt_def] at hlt
    simp only [MapEntry.region, MapRegion.span, BitVec.sub_add_cancel, hsum]
    rw [max_eq_right hlt.le]
  · rw [BitVec.lt_def] at hlt
    simp only [MapEntry.region, MapRegion.span, hsum]
    rw [max_eq_left (by omega)]

theorem region_span (hb : r.base.toNat + r.size.toNat < 2 ^ 64) :
    r.region.span = (r.base.toNat, r.base.toNat + r.size.toNat) := by
  simp only [MapEntry.region, MapRegion.span, BitVec.toNat_add]
  rw [Nat.mod_eq_of_lt (by omega), Nat.add_comm]

theorem clip_null_iff (hb : r.base.toNat + r.size.toNat < 2 ^ 64) (h : ¬ r.Low cutoff) :
    r.clip cutoff = ⟨0, 0⟩ ↔ r = ⟨0, 0⟩ := by
  have hsum : (r.base + r.size).toNat = r.base.toNat + r.size.toNat := by
    rw [BitVec.toNat_add, Nat.mod_eq_of_lt (by omega)]
  unfold MapEntry.clip
  split_ifs with hlt
  · have hend : cutoff.toNat < r.base.toNat + r.size.toNat := by
      rw [← hsum]
      exact BitVec.lt_def.mp (BitVec.not_le.mp fun hle => h ⟨hlt, hle⟩)
    rw [BitVec.lt_def] at hlt
    constructor <;> intro he
    · have h1 := congrArg (·.base.toNat) he
      simp only [BitVec.ofNat_eq_ofNat, BitVec.toNat_zero] at h1
      omega
    · subst he
      simp only [BitVec.ofNat_eq_ofNat, BitVec.toNat_zero] at hlt hend
      omega
  · rfl

/-- The spans that are read are those of the raw entries. -/
theorem spans_of_high (cutoff : Word) (hb : ∀ r ∈ l, r.base.toNat + r.size.toNat < 2 ^ 64) :
    (((highEntries cutoff l).takeWhile (· ≠ ⟨0, 0⟩)).map MapEntry.region).map MapRegion.span =
      kernelSpans cutoff l := by
  rw [highEntries_eq, kernelSpans]
  have hsub : ∀ r ∈ l.dropWhile (·.Low cutoff), r.base.toNat + r.size.toNat < 2 ^ 64 :=
    fun r hr => hb r ((List.dropWhile_sublist _).subset hr)
  rcases hd : l.dropWhile (·.Low cutoff) with - | ⟨r, m⟩
  · rw [hd]
    rfl
  · rw [hd] at hsub ⊢
    have hlow : ¬ r.Low cutoff := by
      have := List.head?_dropWhile_not (fun r : MapEntry => decide (r.Low cutoff)) l
      simpa [hd] using this
    have hr := hsub r (List.mem_cons_self ..)
    by_cases hz : r = ⟨0, 0⟩
    · rw [List.takeWhile_cons_of_neg (by simpa using (clip_null_iff hr hlow).mpr hz),
        List.takeWhile_cons_of_neg (by simpa using hz)]
      rfl
    · rw [List.takeWhile_cons_of_pos (by simpa using fun hc => hz ((clip_null_iff hr hlow).mp hc)),
        List.takeWhile_cons_of_pos (by simpa using hz)]
      simp only [List.map_cons, List.map_map, clip_span cutoff hr]
      refine congrArg _ (List.map_congr_left fun e he => ?_)
      exact region_span (hsub e (List.mem_cons_of_mem _ ((List.takeWhile_sublist _).subset he)))

/-- What is reported was reported at boot. -/
theorem high_free (hb : ∀ r ∈ l, r.base.toNat + r.size.toNat < 2 ^ 64) {e : MapEntry}
    (he : e ∈ highEntries cutoff l) {x : ℕ} (hx : e.region.Has x) : ∃ r ∈ l, r.Has x := by
  rw [highEntries_eq] at he
  have hsub : ∀ r ∈ l.dropWhile (·.Low cutoff), r ∈ l :=
    fun r hr => (List.dropWhile_sublist _).subset hr
  rcases hd : l.dropWhile (·.Low cutoff) with - | ⟨r, m⟩
  · simp [hd] at he
  · rw [hd] at he hsub
    rcases List.mem_cons.mp he with rfl | he
    · have hr := hsub r (List.mem_cons_self ..)
      have hs := clip_span cutoff (hb r hr)
      rw [MapRegion.span, Prod.mk.injEq] at hs
      rw [MapRegion.Has, hs.1, hs.2] at hx
      exact ⟨r, hr, (le_max_left ..).trans hx.1, hx.2⟩
    · have hr := hsub e (List.mem_cons_of_mem _ he)
      have hs := region_span (hb e hr)
      rw [MapRegion.span, Prod.mk.injEq] at hs
      rw [MapRegion.Has, hs.1, hs.2] at hx
      exact ⟨e, hr, hx⟩

/-- An interval lies apart from a walk exactly if none of its addresses is walked. -/
theorem apart_iff {p : Pmm} (ha : p.pmmAllocBase.toNat % 4096 = 0)
    (hc : p.pmmAllocLimit.toNat % 4096 = 0) (r : MapRegion) :
    (∀ x : Word, r.Has x.toNat → ¬ p.Walks x) ↔
      Apart p.pmmAllocBase.toNat p.pmmAllocLimit.toNat r.span := by
  have hd : (p.pmmAllocLimit - p.pmmAllocBase).toNat % 4096 = 0 := by
    rw [BitVec.toNat_sub]
    omega
  have hlo := r.base.isLt
  have hhi := r.limit.isLt
  have hac := p.pmmAllocBase.isLt
  simp only [Pmm.walks_iff hd, BitVec.toNat_sub, Apart, MapRegion.span, MapRegion.Has]
  constructor
  · intro h
    have hlow := h r.base
    have hmax := h (BitVec.ofNat 64 (max r.base.toNat p.pmmAllocBase.toNat))
    rw [BitVec.toNat_ofNat] at hmax
    split_ifs <;> omega
  · intro h x hx
    have hlt := x.isLt
    split_ifs at h <;> omega

end Spans

section Handed

variable {mmap : UnfoldMmap} {im : PinionImage}

/-- The part of the boot map that the kernel reads. -/
def readEntries (mmap : UnfoldMmap) : List MapEntry :=
  (highEntries (mapCutoff mmap.total) mmap.entry).takeWhile (· ≠ ⟨0, 0⟩)

theorem readMap_eq {st : PmmState} (h : Initialized mmap im st)
    (hf : Fits (mapCutoff mmap.total) mmap.entry) : readMap st.pmmMapHigh 256 0 =
      if (readEntries mmap).length < 8 then some ((readEntries mmap).map MapEntry.region)
      else none := by
  have hlen := hf.2
  have hr := readMap_spec h (highEntries (mapCutoff mmap.total) mmap.entry) (i := 0) (n := 256)
    (by omega) rfl (by omega) (by decide)
  rwa [Nat.zero_add] at hr

/-- The promise, entry by entry, is about the spans of the raw entries. -/
theorem promise_iff {st : PmmState} (h : Initialized mmap im st)
    (hb : ∀ r ∈ mmap.entry, r.base.toNat + r.size.toNat < 2 ^ 64) :
    MapPromise mmap st ((readEntries mmap).map MapEntry.region) ↔
      (∀ s ∈ kernelSpans (mapCutoff mmap.total) mmap.entry, PageSpan s) ∧
      (∀ s ∈ kernelSpans (mapCutoff mmap.total) mmap.entry,
        Apart im.end (mapCutoff mmap.total).toNat s) ∧
      (kernelSpans (mapCutoff mmap.total) mmap.entry).Pairwise Gap := by
  have hspans := spans_of_high (mapCutoff mmap.total) hb
  have hmod := im.end_mod
  have hc := mapCutoff_toNat mmap.total
  have ha := bootPmm_allocBase mmap im
  have hapart := apart_iff (p := st.pmm) (by rw [h.pmm, ha, hmod])
    (by rw [h.pmm]; change (mapCutoff mmap.total).toNat % 4096 = 0; omega)
  rw [h.pmm, ha] at hapart
  rw [← hspans]
  simp only [List.forall_mem_map]
  rw [List.pairwise_map]
  constructor
  · intro hp
    refine ⟨fun e he => hp.aligned _ (List.mem_map_of_mem he), fun e he => ?_, hp.separated⟩
    have hs := hp.spared _ (List.mem_map_of_mem he)
    rw [h.pmm] at hs
    exact (hapart _).mp hs
  · rintro ⟨hal, hap, hgap⟩
    refine ⟨?_, ?_, ?_, ?_, hgap⟩
    · exact List.forall_mem_map.mpr hal
    · refine List.forall_mem_map.mpr fun e he x hx => ?_
      exact high_free hb ((List.takeWhile_sublist _).subset he) hx
    · refine List.forall_mem_map.mpr fun e he => ?_
      rw [h.pmm]
      exact (hapart _).mpr (hap e he)
    · refine hgap.imp fun hg x h1 h2 => ?_
      unfold Gap MapRegion.span at hg
      unfold MapRegion.Has at h1 h2
      omega

/-- The map that the kernel can read is as promised exactly if the boot map, cut at the cutoff,
already is. -/
theorem memory_map_promise (mmap : UnfoldMmap) (im : PinionImage)
    (hb : ∀ r ∈ mmap.entry, r.base.toNat + r.size.toNat < 2 ^ 64) :
    KeepsPromise mmap im ↔ KernelShare mmap im := by
  have hlen : (kernelSpans (mapCutoff mmap.total) mmap.entry).length =
      (readEntries mmap).length := by
    rw [← spans_of_high _ hb, List.length_map, List.length_map]
    rfl
  have hhigh := highEntries_length (mapCutoff mmap.total) mmap.entry
  constructor
  · rintro ⟨st, l, hst, hl, hp⟩
    have hf := fits_of_pmmInit hst
    have hinit := initialized_of_pmmInit hst
    rw [readMap_eq hinit hf] at hl
    split_ifs at hl with hlt
    obtain rfl := Option.some.inj hl
    obtain ⟨h1, h2, h3⟩ := (promise_iff hinit hb).mp hp
    exact ⟨hf.1, hhigh ▸ hf.2, hlen ▸ hlt, h1, h2, h3⟩
  · intro hk
    have hf : Fits (mapCutoff mmap.total) mmap.entry := ⟨hk.low, hhigh.symm ▸ hk.high⟩
    obtain ⟨st, hst, hinit⟩ := (pmmInit_spec mmap im).1 hf
    refine ⟨st, _, hst, (readMap_eq hinit hf).trans (if_pos (hlen ▸ hk.ended)), ?_⟩
    exact (promise_iff hinit hb).mpr ⟨hk.aligned, hk.apart, hk.separated⟩

/-- A map of 128 MB as a boot loader passes it, with all ends on page boundaries. -/
theorem memory_map_promise_aligned : KeepsPromise
    ⟨0x7F8F000, [⟨0, 0x9F000⟩, ⟨0x100000, 0x7EF0000⟩]⟩
    ⟨0xFFFFFFFFC0200000, 0xFFFFFFFFC0210000, by decide, by decide, by decide⟩ := by
  have hspans : kernelSpans (mapCutoff 0x7F8F000) [⟨0, 0x9F000⟩, ⟨0x100000, 0x7EF0000⟩] =
      [(0x800000, 0x7FF0000)] := by decide
  refine (memory_map_promise _ _ (by decide)).mpr ⟨by decide, by decide, by decide, ?_, ?_, ?_⟩
  · rw [hspans]
    simp [PageSpan]
  · intro s hs
    obtain rfl := List.mem_singleton.mp (hspans ▸ hs)
    have hc : (mapCutoff 0x7F8F000).toNat = 0x800000 := by decide
    have he : PinionImage.end ⟨0xFFFFFFFFC0200000, 0xFFFFFFFFC0210000, by decide, by decide,
        by decide⟩ = 0x210000 := by decide
    rw [hc, he]
    simp [Apart]
  · rw [hspans]
    exact List.pairwise_singleton ..

/-- Entries that the boot loader lists in descending order are given to the kernel together with
the pages that pmm_alloc hands out. -/
theorem memory_map_shared : ¬ ∀ (mmap : UnfoldMmap) (im : PinionImage),
    (∀ r ∈ mmap.entry, r.base.toNat + r.size.toNat < 2 ^ 64) →
    mmap.entry.Pairwise (fun r s => ∀ x, r.Has x → ¬ s.Has x) → KeepsPromise mmap im := by
  intro h
  let mmap : UnfoldMmap := ⟨0x7F00000, [⟨0x1000000, 0x7000000⟩, ⟨0x100000, 0xF00000⟩]⟩
  let im : PinionImage :=
    ⟨0xFFFFFFFFC0200000, 0xFFFFFFFFC0210000, by decide, by decide, by decide⟩
  have hdisj : mmap.entry.Pairwise fun r s => ∀ x, r.Has x → ¬ s.Has x := by
    refine List.pairwise_pair.mpr fun x h1 h2 => ?_
    have hlt := h2.2
    have hle := h1.1
    simp only [BitVec.reduceToNat] at hlt hle
    omega
  obtain ⟨st, l, hst, hl, hp⟩ := h mmap im (by decide) hdisj
  have hinit := initialized_of_pmmInit hst
  rw [readMap_eq hinit (by decide), if_pos (by decide)] at hl
  obtain rfl := Option.some.inj hl
  have hmem : (⟨0x100000, 0x1000000⟩ : MapRegion) ∈ (readEntries mmap).map MapEntry.region := by
    decide
  have hwalk : st.pmm.Walks 0x210000 := by
    rw [hinit.pmm]
    exact ⟨0, by decide, by decide⟩
  have hhas : (⟨0x100000, 0x1000000⟩ : MapRegion).Has (BitVec.toNat (0x210000 : Word)) :=
    ⟨by decide, by decide⟩
  exact hp.spared _ hmem _ hhas hwalk

end Handed
end Pinion64
