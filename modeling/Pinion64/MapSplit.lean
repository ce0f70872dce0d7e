import Pinion64.KernelMemory
import Mathlib.Data.List.Basic

/-! What the kernel reads of a boot map that is in order, and which entries of the two static
tables are touched for any boot map. -/
namespace Pinion64

section Bounds

/-- A read behind the end of the space is undefined and has no result. -/
def PmmMap.get {n : ℕ} (t : PmmMap n) (i : ℕ) : Option MapEntry :=
  if h : i < n then some (t.entry ⟨i, h⟩) else none

/-- The loop that lists a table at the end of pmm_init, from entry `i` on. -/
def PmmMap.listFrom {n : ℕ} (t : PmmMap n) : ℕ → ℕ → Option (List MapEntry)
  | 0, _ => some []
  | k+1, i =>
    match t.get i with
    | none => none
    | some e => (t.listFrom k (i+1)).map (e :: ·)

def PmmMap.list {n : ℕ} (t : PmmMap n) : Option (List MapEntry) := t.listFrom t.count 0

/-- All entries that pmm_init writes and lists, and the one that the reader reads for the index,
exist. -/
def MapsInBounds (mmap : UnfoldMmap) (im : PinionImage) (index : BitVec 8) : Prop :=
  ∃ st low high r, pmmInit mmap im = some st ∧ st.pmmMapLow.list = some low ∧
    st.pmmMapHigh.list = some high ∧ apilogicMemoryMapRead st.pmmMapHigh index = some r

theorem PmmMap.listFrom_of_le {n : ℕ} (t : PmmMap n) {k i : ℕ} (h : i + k ≤ n) :
    ∃ l, t.listFrom k i = some l := by
  induction k generalizing i with
  | zero => exact ⟨[], rfl⟩
  | succ k ih =>
    obtain ⟨l, hl⟩ := ih (i := i + 1) (by omega)
    have hg : t.get i = some (t.entry ⟨i, by omega⟩) := dif_pos (by omega)
    exact ⟨t.entry ⟨i, by omega⟩ :: l, by rw [PmmMap.listFrom, hg, hl]; rfl⟩

theorem PmmMap.list_of_le {n : ℕ} (t : PmmMap n) (h : t.count ≤ n) : ∃ l, t.list = some l :=
  t.listFrom_of_le (by omega)

/-- The low table never counts more than its entries. -/
theorem fillLow_count {cutoff : Word} {l : List MapEntry} {i : ℕ} (hi : i ≤ 3) {low : PmmMap 3}
    (hc : low.count ≤ 3) {high : PmmMap 8} {i' j : ℕ} {low' : PmmMap 3} {high' : PmmMap 8}
    (h : fillLow cutoff l i low high = some (i', j, low', high')) : low'.count ≤ 3 := by
  induction l generalizing i low with
  | nil =>
    simp only [fillLow, Option.some.injEq, Prod.mk.injEq] at h
    obtain ⟨-, -, rfl, -⟩ := h
    exact hc
  | cons r l ih =>
    by_cases hb : r.base < cutoff
    · by_cases hlt : i < 3
      · by_cases hlow : r.Low cutoff
        · rw [fillLow_low hlow hlt] at h
          exact ih (i := i + 1) hlt (by exact hc) h
        · rw [fillLow_cut hlow hb hlt] at h
          simp only [Option.some.injEq, Prod.mk.injEq] at h
          obtain ⟨-, -, rfl, -⟩ := h
          exact hlt
      · rw [fillLow_full hb (by omega)] at h
        cases h
    · rw [fillLow_high hb hi] at h
      simp only [Option.some.injEq, Prod.mk.injEq] at h
      obtain ⟨-, -, rfl, -⟩ := h
      exact hi

theorem pmmInit_low_count {mmap : UnfoldMmap} {im : PinionImage} {st : PmmState}
    (h : pmmInit mmap im = some st) : st.pmmMapLow.count ≤ 3 := by
  simp only [pmmInit] at h
  cases hf : fillLow (mapCutoff mmap.total) mmap.entry 0 (.empty 3) (.empty 8) with
  | none =>
    rw [hf] at h
    cases h
  | some t =>
    obtain ⟨i, j, low, high⟩ := t
    rw [hf] at h
    dsimp only at h
    cases hh : fillHigh (mmap.entry.drop (i + j)) i high with
    | none =>
      rw [hh] at h
      cases h
    | some high' =>
      rw [hh] at h
      obtain rfl := Option.some.inj h
      exact fillLow_count (by decide) (by decide) hf

variable {mmap : UnfoldMmap} {im : PinionImage} {st : PmmState}

theorem Initialized.high_count (h : Initialized mmap im st)
    (hf : Fits (mapCutoff mmap.total) mmap.entry) : st.pmmMapHigh.count ≤ 8 := by
  have hlen := hf.2
  rcases h.count with he | ⟨-, he⟩ <;> omega

/-- As long as the table is not full there is an entry for every index up to the count. -/
theorem read_of_length_lt (h : Initialized mmap im st)
    (hlen : (highEntries (mapCutoff mmap.total) mmap.entry).length < 8) (index : BitVec 8) :
    apilogicMemoryMapRead st.pmmMapHigh index = some
      ((highEntries (mapCutoff mmap.total) mmap.entry).getD index.toNat ⟨0, 0⟩).region := by
  by_cases hi : index.toNat < 8
  · have hread := read_of_lt h hi
    rwa [BitVec.ofNat_toNat, BitVec.setWidth_eq] at hread
  · have hc : st.pmmMapHigh.count < index.toNat := by
      rcases h.count with he | ⟨-, he⟩ <;> omega
    rw [apilogicMemoryMapRead, pmmGetHighMemoryMap, if_pos hc, List.getD_eq_default _ _ (by omega)]
    rfl

/-- The tables are overrun for exactly the boot maps that do not fit into them, and by the reader
for index eight of a full table. -/
theorem map_tables_in_bounds (mmap : UnfoldMmap) (im : PinionImage) (index : BitVec 8) :
    MapsInBounds mmap im index ↔ Fits (mapCutoff mmap.total) mmap.entry ∧
      ¬ ((highEntries (mapCutoff mmap.total) mmap.entry).length = 8 ∧ index = 8) := by
  constructor
  · rintro ⟨st, low, high, r, hst, -, -, hr⟩
    refine ⟨fits_of_pmmInit hst, fun ⟨hlen, hindex⟩ => ?_⟩
    have hinit := initialized_of_pmmInit hst
    have hnone : apilogicMemoryMapRead st.pmmMapHigh index = none := by
      rw [hindex]
      exact read_of_eq hinit hlen
    rw [hnone] at hr
    cases hr
  · rintro ⟨hf, hread⟩
    obtain ⟨st, hst, hinit⟩ := (pmmInit_spec mmap im).1 hf
    obtain ⟨low, hlow⟩ := st.pmmMapLow.list_of_le (pmmInit_low_count hst)
    obtain ⟨high, hhigh⟩ := st.pmmMapHigh.list_of_le (hinit.high_count hf)
    have hr : ∃ r, apilogicMemoryMapRead st.pmmMapHigh index = some r := by
      by_cases hlen : (highEntries (mapCutoff mmap.total) mmap.entry).length = 8
      · have hne : index ≠ 8 := fun he => hread ⟨hlen, he⟩
        by_cases hlt : index.toNat < 8
        · have h := read_of_lt hinit hlt
          rw [BitVec.ofNat_toNat, BitVec.setWidth_eq] at h
          exact ⟨_, h⟩
        · have hc : st.pmmMapHigh.count < index.toNat := by
            have hle := hinit.high_count hf
            have h8 : index.toNat ≠ 8 := fun he => hne (BitVec.eq_of_toNat_eq he)
            omega
          exact ⟨⟨0, 0⟩, by rw [apilogicMemoryMapRead, pmmGetHighMemoryMap, if_pos hc]⟩
      · have hlt := hf.2
        exact ⟨_, read_of_length_lt hinit (by omega) index⟩
    obtain ⟨r, hr⟩ := hr
    exact ⟨st, low, high, r, hst, hlow, hhigh, hr⟩

/-- Four regions below the cutoff, as a PC reports them. -/
theorem map_tables_overrun : ¬ ∀ (mmap : UnfoldMmap) (im : PinionImage) (index : BitVec 8),
    MapsInBounds mmap im index := by
  intro h
  obtain ⟨st, low, high, r, hst, -⟩ := h
    ⟨0x8000000, [⟨0, 0x9F000⟩, ⟨0x9F000, 0x1000⟩, ⟨0xF0000, 0x10000⟩, ⟨0x100000, 0x7F00000⟩]⟩
    ⟨0xFFFFFFFFC0200000, 0xFFFFFFFFC0210000, by decide, by decide, by decide⟩ 0
  exact absurd (fits_of_pmmInit hst) (by decide)

end Bounds

section Split

/-- What of the region lies at or above the cutoff. -/
def MapEntry.above (cutoff : Word) (r : MapEntry) : Option MapRegion :=
  if cutoff < r.base + r.size then
    some ⟨if r.base < cutoff then cutoff else r.base, r.base + r.size⟩
  else none

/-- A boot map in order, with few enough regions on both sides of the cutoff. -/
structure Ordered (cutoff : Word) (l : List MapEntry) : Prop where
  sorted : l.Pairwise fun r s => r.base.toNat ≤ s.base.toNat
  disjoint : l.Pairwise fun r s => ∀ x, r.Has x → ¬ s.Has x
  bounded : ∀ r ∈ l, r.base.toNat + r.size.toNat < 2 ^ 64
  nonempty : ∀ r ∈ l, r.size ≠ 0
  low : (l.filter fun r => r.base < cutoff).length ≤ 3
  high : (l.filter fun r => cutoff < r.base + r.size).length ≤ 7

variable {cutoff : Word} {l : List MapEntry} {r : MapEntry}

theorem end_toNat (hb : r.base.toNat + r.size.toNat < 2 ^ 64) :
    (r.base + r.size).toNat = r.base.toNat + r.size.toNat := by
  rw [BitVec.toNat_add, Nat.mod_eq_of_lt hb]

/-- Of two regions in order the first ends where the second begins, at the latest. -/
theorem end_le_base {s : MapEntry} (hle : r.base.toNat ≤ s.base.toNat)
    (hd : ∀ x, r.Has x → ¬ s.Has x) (hs : s.size ≠ 0) :
    r.base.toNat + r.size.toNat ≤ s.base.toNat := by
  by_contra hlt
  have hpos : 0 < s.size.toNat := by
    rcases Nat.eq_zero_or_pos s.size.toNat with hz | hz
    · exact absurd (BitVec.eq_of_toNat_eq hz) hs
    · exact hz
  exact hd s.base.toNat ⟨hle, by omega⟩ ⟨le_rfl, by omega⟩

theorem lowEntries_le (cutoff : Word) (l : List MapEntry) :
    lowEntries cutoff l ≤ (l.filter fun r => r.base < cutoff).length := by
  induction l with
  | nil => exact le_rfl
  | cons r l ih =>
    unfold lowEntries
    by_cases hb : r.base < cutoff
    · rw [List.filter_cons_of_pos (by simpa using hb), List.length_cons]
      split_ifs <;> omega
    · rw [List.filter_cons_of_neg (by simpa using hb), if_neg fun hl => hb hl.1, if_neg hb]
      exact Nat.zero_le _

/-- Regions at or above the cutoff are left to the kernel as they are. -/
theorem above_of_le (hb : r.base.toNat + r.size.toNat < 2 ^ 64) (hs : r.size ≠ 0)
    (hc : ¬ r.base < cutoff) : r.above cutoff = some r.region := by
  have hpos : 0 < r.size.toNat := by
    rcases Nat.eq_zero_or_pos r.size.toNat with hz | hz
    · exact absurd (BitVec.eq_of_toNat_eq hz) hs
    · exact hz
  have hlt : cutoff < r.base + r.size := by
    rw [BitVec.lt_def, end_toNat hb]
    rw [BitVec.lt_def] at hc
    omega
  rw [MapEntry.above, if_pos hlt, if_neg hc, MapEntry.region, BitVec.add_comm]

/-- The entries of the high table are the parts of the regions above the cutoff. -/
theorem map_highEntries (hsorted : l.Pairwise fun r s => r.base.toNat ≤ s.base.toNat)
    (hdisj : l.Pairwise fun r s => ∀ x, r.Has x → ¬ s.Has x)
    (hbound : ∀ r ∈ l, r.base.toNat + r.size.toNat < 2 ^ 64) (hne : ∀ r ∈ l, r.size ≠ 0) :
    (highEntries cutoff l).map MapEntry.region = l.filterMap (·.above cutoff) := by
  induction l with
  | nil => rfl
  | cons r l ih =>
    obtain ⟨hr, hsorted⟩ := List.pairwise_cons.mp hsorted
    obtain ⟨hd, hdisj⟩ := List.pairwise_cons.mp hdisj
    have hbr := hbound r (List.mem_cons_self ..)
    have hb := fun s hs => hbound s (List.mem_cons_of_mem r hs)
    have hn := fun s hs => hne s (List.mem_cons_of_mem r hs)
    unfold highEntries
    by_cases hlow : r.Low cutoff
    · have hnone : r.above cutoff = none := if_neg (BitVec.not_lt.mpr hlow.2)
      rw [if_pos hlow, List.filterMap_cons_none hnone]
      exact ih hsorted hdisj hb hn
    · rw [if_neg hlow, List.map_cons]
      have hclip : r.above cutoff = some (r.clip cutoff).region := by
        by_cases hc : r.base < cutoff
        · have hlt : cutoff < r.base + r.size := by
            by_contra hle
            exact hlow ⟨hc, BitVec.not_lt.mp hle⟩
          rw [MapEntry.above, if_pos hlt, if_pos hc, MapEntry.clip, if_pos hc, MapEntry.region]
          dsimp only
          rw [BitVec.sub_add_cancel, BitVec.add_comm]
        · rw [MapEntry.clip, if_neg hc]
          exact above_of_le hbr (hne r (List.mem_cons_self ..)) hc
      rw [List.filterMap_cons_some hclip]
      congr 1
      -- behind the first region that is not low, all of them lie above the cutoff
      have hrest : ∀ s ∈ l, s.above cutoff = some s.region := by
        intro s hs
        refine above_of_le (hb s hs) (hn s hs) fun hc => hlow ?_
        have hle := end_le_base (hr s hs) (hd s hs) (hn s hs)
        rw [BitVec.lt_def] at hc
        constructor
        · rw [BitVec.lt_def]
          omega
        · rw [BitVec.le_def, end_toNat hbr]
          omega
      exact (List.filterMap_eq_map_iff_forall_eq_some.mpr hrest).symm

instance (r : MapEntry) (x : ℕ) : Decidable (r.Has x) := inferInstanceAs (Decidable (_ ∧ _))

instance (r : MapRegion) (x : ℕ) : Decidable (r.Has x) := inferInstanceAs (Decidable (_ ∧ _))

theorem above_has (hb : r.base.toNat + r.size.toNat < 2 ^ 64) {g : MapRegion}
    (hg : r.above cutoff = some g) (x : ℕ) : g.Has x ↔ cutoff.toNat ≤ x ∧ r.Has x := by
  unfold MapEntry.above at hg
  split at hg
  · rename_i hlt
    obtain rfl := Option.some.inj hg
    have he := end_toNat hb
    rw [BitVec.lt_def] at hlt
    simp only [MapRegion.Has, MapEntry.Has, he, BitVec.lt_def]
    split <;> omega
  · cases hg

theorem above_none (hb : r.base.toNat + r.size.toNat < 2 ^ 64) (hg : r.above cutoff = none) {x : ℕ}
    (hx : cutoff.toNat ≤ x) : ¬ r.Has x := by
  unfold MapEntry.above at hg
  split at hg
  · cases hg
  · rename_i hlt
    rw [BitVec.lt_def, end_toNat hb] at hlt
    rintro ⟨-, h⟩
    omega

/-- A byte at or above the cutoff is in as many regions of the kernel as it was in boot regions,
a byte below it is in none. -/
theorem above_count (hb : ∀ r ∈ l, r.base.toNat + r.size.toNat < 2 ^ 64) (x : ℕ) :
    ((l.filterMap (·.above cutoff)).filter fun g => g.Has x).length =
      if cutoff.toNat ≤ x then (l.filter fun r => r.Has x).length else 0 := by
  induction l with
  | nil => simp
  | cons r l ih =>
    have hbr := hb r (List.mem_cons_self ..)
    have ih := ih fun s hs => hb s (List.mem_cons_of_mem r hs)
    cases hg : r.above cutoff with
    | none =>
      rw [List.filterMap_cons_none hg, ih]
      split
      · rename_i hx
        rw [List.filter_cons_of_neg (by simpa using above_none hbr hg hx)]
      · rfl
    | some g =>
      have hiff := above_has hbr hg x
      rw [List.filterMap_cons_some hg]
      by_cases hx : cutoff.toNat ≤ x
      · rw [if_pos hx] at ih ⊢
        by_cases hr : r.Has x
        · rw [List.filter_cons_of_pos (by simpa using hiff.mpr ⟨hx, hr⟩),
            List.filter_cons_of_pos (by simpa using hr), List.length_cons, List.length_cons, ih]
        · rw [List.filter_cons_of_neg (by simpa using fun h => hr (hiff.mp h).2),
            List.filter_cons_of_neg (by simpa using hr), ih]
      · rw [if_neg hx] at ih ⊢
        rw [List.filter_cons_of_neg (by simpa using fun h => hx (hiff.mp h).1), ih]

theorem region_null : MapEntry.region ⟨0, 0⟩ = ⟨0, 0⟩ := rfl

/-- The kernel reads the parts of the boot regions at or above the cutoff, in order, and then the
null region: these parts hold each byte exactly as often as the boot regions do. -/
theorem memory_map_split (mmap : UnfoldMmap) (im : PinionImage)
    (h : Ordered (mapCutoff mmap.total) mmap.entry) :
    ∃ st, pmmInit mmap im = some st ∧
      (∀ index : BitVec 8, apilogicMemoryMapRead st.pmmMapHigh index =
        some ((mmap.entry.filterMap (·.above (mapCutoff mmap.total))).getD index.toNat ⟨0, 0⟩)) ∧
      ∀ x, ((mmap.entry.filterMap (·.above (mapCutoff mmap.total))).filter
          fun g => g.Has x).length =
        if (mapCutoff mmap.total).toNat ≤ x then (mmap.entry.filter fun r => r.Has x).length
        else 0 := by
  have hmap : (highEntries (mapCutoff mmap.total) mmap.entry).map MapEntry.region =
      mmap.entry.filterMap (·.above (mapCutoff mmap.total)) :=
    map_highEntries h.sorted h.disjoint h.bounded h.nonempty
  have hlen : (highEntries (mapCutoff mmap.total) mmap.entry).length =
      (mmap.entry.filter fun r => mapCutoff mmap.total < r.base + r.size).length := by
    rw [← List.length_map (f := MapEntry.region), hmap, List.length_filterMap_eq_countP,
      List.countP_eq_length_filter]
    congr 2
    funext r
    unfold MapEntry.above
    split <;> simp [*]
  have hhigh := h.high
  have hfit : Fits (mapCutoff mmap.total) mmap.entry :=
    ⟨(lowEntries_le _ _).trans h.low, by omega⟩
  obtain ⟨st, hst, hinit⟩ := (pmmInit_spec mmap im).1 hfit
  refine ⟨st, hst, fun index => ?_, above_count h.bounded⟩
  rw [read_of_length_lt hinit (by omega) index, ← hmap, ← region_null, List.getD_map]

/-- A region that straddles the cutoff is split there. -/
theorem memory_map_split_straddling :
    ∃ st, pmmInit ⟨0x7F8F000, [⟨0, 0x9F000⟩, ⟨0x100000, 0x7EF0000⟩]⟩
        ⟨0xFFFFFFFFC0200000, 0xFFFFFFFFC0210000, by decide, by decide, by decide⟩ = some st ∧
      apilogicMemoryMapRead st.pmmMapHigh 0 = some ⟨0x800000, 0x7FF0000⟩ ∧
      apilogicMemoryMapRead st.pmmMapHigh 1 = some ⟨0, 0⟩ := by
  have hdisj : ([⟨0, 0x9F000⟩, ⟨0x100000, 0x7EF0000⟩] : List MapEntry).Pairwise
      fun r s => ∀ x, r.Has x → ¬ s.Has x := by
    refine List.pairwise_pair.mpr fun x h1 h2 => ?_
    have hlt := h1.2
    have hle := h2.1
    simp only [BitVec.reduceToNat] at hlt hle
    omega
  obtain ⟨st, hst, hread, -⟩ := memory_map_split
    ⟨0x7F8F000, [⟨0, 0x9F000⟩, ⟨0x100000, 0x7EF0000⟩]⟩
    ⟨0xFFFFFFFFC0200000, 0xFFFFFFFFC0210000, by decide, by decide, by decide⟩
    ⟨by decide, hdisj, by decide, by decide, by decide, by decide⟩
  exact ⟨st, hst, (hread 0).trans (by decide), (hread 1).trans (by decide)⟩

end Split
end Pinion64
