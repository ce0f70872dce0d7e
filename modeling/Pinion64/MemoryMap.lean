import Pinion64.Pmm

/-! The boot memory map: how pmm.c splits it between pinion and the kernel, and how the kernel
reads its part. -/
namespace Pinion64

structure MapEntry where
  base : Word
  size : Word
  deriving DecidableEq

/-- `count` is the length of the list. -/
structure UnfoldMmap where
  total : Word
  entry : List MapEntry

/-- Where the linker has put the pinion image. -/
structure PinionImage where
  baseaddr : Word
  limitaddr : Word
  ordered : baseaddr.toNat ≤ limitaddr.toNat
  above : 0x200000 ≤ baseaddr.toNat
  below : limitaddr.toNat ≤ 2 ^ 64 - 0x1000

/-- The image rounded to whole pages. -/
def getPinionRange (im : PinionImage) : Word × Word :=
  (im.baseaddr &&& ~~~0xFFF, -(-im.limitaddr &&& ~~~0xFFF))

/-- A table in a static space that has room for `n` entries. -/
structure PmmMap (n : ℕ) where
  count : ℕ
  entry : Fin n → MapEntry

def PmmMap.empty (n : ℕ) : PmmMap n := ⟨0, fun _ => ⟨0, 0⟩⟩

/-- A write behind the end of the space is undefined and has no result. -/
def PmmMap.set {n : ℕ} (t : PmmMap n) (i : ℕ) (r : MapEntry) : Option (PmmMap n) :=
  if h : i < n then some { t with entry := Function.update t.entry ⟨i, h⟩ r } else none

/-- `pmm_map_low_space` holds the count and three entries, `pmm_map_high_space` the count and
eight. -/
structure PmmState where
  pmm : Pmm
  pmmMapCutoff : Word
  pmmMapLow : PmmMap 3
  pmmMapHigh : PmmMap 8

/-- `-(-(total / 256) & (-1 << 23))` -/
def mapCutoff (total : Word) : Word := -(-(total / 256 : Word) &&& ((-1 : Word) <<< 23 : Word))

/-- The loop that fills the low map, at entry `i` of the boot map. It ends with the indices `i`
and `j` of the second loop. -/
def fillLow (cutoff : Word) : List MapEntry → ℕ → PmmMap 3 → PmmMap 8 →
    Option (ℕ × ℕ × PmmMap 3 × PmmMap 8)
  | [], i, low, high => some (i, 0, low, high)
  | r :: l, i, low, high =>
    if 6 ≤ i then some (0, i, { low with count := i }, high)
    else if r.base < cutoff then
      if r.base + r.size ≤ cutoff then
        match low.set i r with
        | none => none
        | some low => fillLow cutoff l (i+1) low high
      else
        match low.set i ⟨r.base, cutoff - r.base⟩, high.set 0 ⟨cutoff, r.size + r.base - cutoff⟩ with
        | some low, some high => some (1, i, { low with count := i + 1 }, high)
        | _, _ => none
    else some (0, i, { low with count := i }, high)

/-- The loop that fills the high map, over what is left of the boot map. -/
def fillHigh : List MapEntry → ℕ → PmmMap 8 → Option (PmmMap 8)
  | [], i, high => some { high with count := i }
  | r :: l, i, high =>
    if i < 16 then
      match high.set i r with
      | none => none
      | some high => fillHigh l (i+1) high
    else some { high with count := i }

/-- The messages to the log are left out. -/
def pmmInit (mmap : UnfoldMmap) (im : PinionImage) : Option PmmState :=
  let (base, limit) := getPinionRange im
  let pmmBase := base - 0x200000
  let cutoff := mapCutoff mmap.total
  match fillLow cutoff mmap.entry 0 (.empty 3) (.empty 8) with
  | none => none
  | some (i, j, low, high) =>
    match fillHigh (mmap.entry.drop (i + j)) i high with
    | none => none
    | some high => some ⟨⟨pmmBase, limit - pmmBase, cutoff⟩, cutoff, low, high⟩

/-- `false` is `some none`; a read behind the end of the space is undefined. -/
def pmmGetHighMemoryMap (high : PmmMap 8) (index : ℕ) : Option (Option MapEntry) :=
  if high.count < index then some none
  else if h : index < 8 then some (some (high.entry ⟨index, h⟩))
  else none

structure MapRegion where
  base : Word
  limit : Word
  deriving DecidableEq

def apilogicMemoryMapRead (high : PmmMap 8) (index : BitVec 8) : Option MapRegion :=
  match pmmGetHighMemoryMap high index.toNat with
  | none => none
  | some none => some ⟨0, 0⟩
  | some (some e) => some ⟨e.base, e.size + e.base⟩

section Split

/-- The entry is left to pinion as a whole. -/
def MapEntry.Low (cutoff : Word) (r : MapEntry) : Prop :=
  r.base < cutoff ∧ r.base + r.size ≤ cutoff

instance (cutoff : Word) (r : MapEntry) : Decidable (r.Low cutoff) := by
  unfold MapEntry.Low
  infer_instance

/-- What is left to the kernel of an entry that is not low. -/
def MapEntry.clip (cutoff : Word) (r : MapEntry) : MapEntry :=
  if r.base < cutoff then ⟨cutoff, r.size + r.base - cutoff⟩ else r

/-- How many entries the low map takes. -/
def lowEntries (cutoff : Word) : List MapEntry → ℕ
  | [] => 0
  | r :: l => if r.Low cutoff then lowEntries cutoff l + 1 else if r.base < cutoff then 1 else 0

/-- The part of the boot map that is left to the kernel: from the first entry on that is not
low, whatever comes behind it. -/
def highEntries (cutoff : Word) : List MapEntry → List MapEntry
  | [] => []
  | r :: l => if r.Low cutoff then highEntries cutoff l else r.clip cutoff :: l

/-- Both maps have room for their entries. -/
def Fits (cutoff : Word) (l : List MapEntry) : Prop :=
  lowEntries cutoff l ≤ 3 ∧ (highEntries cutoff l).length ≤ 8

instance (cutoff : Word) (l : List MapEntry) : Decidable (Fits cutoff l) := by
  unfold Fits
  infer_instance

theorem PmmMap.set_of_lt {n : ℕ} (t : PmmMap n) {i : ℕ} (h : i < n) (r : MapEntry) :
    t.set i r = some { t with entry := Function.update t.entry ⟨i, h⟩ r } := dif_pos h

theorem PmmMap.set_of_le {n : ℕ} (t : PmmMap n) {i : ℕ} (h : n ≤ i) (r : MapEntry) :
    t.set i r = none := dif_neg (not_lt.mpr h)

/-- The entries from `i` on are those of the list, what lies before them is as it was. -/
theorem fillHigh_spec (l : List MapEntry) {i : ℕ} (hi : i ≤ 8) (high : PmmMap 8) :
    if i + l.length ≤ 8 then ∃ high', fillHigh l i high = some high' ∧
      high'.count = i + l.length ∧ ∀ k : Fin 8, high'.entry k =
        if k.val < i then high.entry k else l.getD (k.val - i) (high.entry k)
    else fillHigh l i high = none := by
  induction l generalizing i high with
  | nil =>
    rw [List.length_nil, Nat.add_zero, if_pos hi]
    exact ⟨_, rfl, rfl, fun k => by simp⟩
  | cons r l ih =>
    simp only [fillHigh, List.length_cons]
    by_cases hlt : i < 8
    · rw [if_pos (show i < 16 by omega), high.set_of_lt hlt]
      have h := ih (i := i + 1) hlt { high with entry := Function.update high.entry ⟨i, hlt⟩ r }
      rw [show i + 1 + l.length = i + (l.length + 1) by omega] at h
      split_ifs at h ⊢ with hle
      · obtain ⟨high', h1, h2, h3⟩ := h
        refine ⟨high', h1, h2, fun k => ?_⟩
        rw [h3]
        dsimp only
        by_cases hk : k = ⟨i, hlt⟩
        · subst hk
          simp
        · have hne : k.val ≠ i := fun he => hk (Fin.ext he)
          rw [Function.update_of_ne hk]
          by_cases hki : k.val < i
          · rw [if_pos (by omega), if_pos hki]
          · rw [if_neg (by omega), if_neg hki,
              show k.val - i = k.val - (i + 1) + 1 by omega, List.getD_cons_succ]
      · exact h
    · rw [if_neg (show ¬ i + (l.length + 1) ≤ 8 by omega), if_pos (show i < 16 by omega),
        high.set_of_le (by omega)]

section Cases

variable {cutoff : Word} {r : MapEntry} {l : List MapEntry} {i : ℕ} {low : PmmMap 3}
  {high : PmmMap 8}

theorem fillLow_low (h : r.Low cutoff) (hi : i < 3) : fillLow cutoff (r :: l) i low high =
    fillLow cutoff l (i+1) { low with entry := Function.update low.entry ⟨i, hi⟩ r } high := by
  rw [fillLow, if_neg (by omega), if_pos h.1, if_pos h.2, low.set_of_lt hi]

theorem fillLow_cut (h : ¬ r.Low cutoff) (hb : r.base < cutoff) (hi : i < 3) :
    fillLow cutoff (r :: l) i low high = some (1, i,
      ⟨i + 1, Function.update low.entry ⟨i, hi⟩ ⟨r.base, cutoff - r.base⟩⟩,
      { high with entry := Function.update high.entry 0 (r.clip cutoff) }) := by
  rw [fillLow, if_neg (by omega), if_pos hb, if_neg fun hs => h ⟨hb, hs⟩, low.set_of_lt hi,
    high.set_of_lt (by decide), MapEntry.clip, if_pos hb]
  rfl

theorem fillLow_full (hb : r.base < cutoff) (hi : i = 3) :
    fillLow cutoff (r :: l) i low high = none := by
  rw [fillLow, if_neg (by omega), if_pos hb, low.set_of_le (by omega)]
  split_ifs
  · rfl
  · rw [low.set_of_le (by omega)]

theorem fillLow_high (hb : ¬ r.base < cutoff) (hi : i ≤ 3) :
    fillLow cutoff (r :: l) i low high = some (0, i, { low with count := i }, high) := by
  rw [fillLow, if_neg (by omega), if_neg hb]

end Cases

/-- What the first loop hands over to the second, which copies `m.drop (i' + j)` from `i'` on:
together they write the high entries. -/
structure Handover (cutoff : Word) (m l : List MapEntry) (high : PmmMap 8) (i' j : ℕ)
    (high' : PmmMap 8) : Prop where
  index : i' ≤ 3
  copied : highEntries cutoff l = [] ∧ m.drop (i' + j) = [] ∧ high' = high ∨
    i' + (m.drop (i' + j)).length = (highEntries cutoff l).length ∧
    ∀ k : Fin 8, (if k.val < i' then high'.entry k
      else (m.drop (i' + j)).getD (k.val - i') (high'.entry k)) =
        (highEntries cutoff l).getD k (high.entry k)

theorem fillLow_spec (cutoff : Word) (m l : List MapEntry) {i : ℕ} (hl : m.drop i = l) (hi : i ≤ 3)
    (low : PmmMap 3) (high : PmmMap 8) :
    (i + lowEntries cutoff l ≤ 3 → ∃ i' j low' high',
      fillLow cutoff l i low high = some (i', j, low', high') ∧
        Handover cutoff m l high i' j high') ∧
    (¬ i + lowEntries cutoff l ≤ 3 → fillLow cutoff l i low high = none) := by
  induction l generalizing i low with
  | nil =>
    exact ⟨fun _ => ⟨i, 0, low, high, rfl, hi, Or.inl ⟨rfl, hl, rfl⟩⟩, fun h => absurd hi h⟩
  | cons r l ih =>
    have hl' : m.drop (i+1) = l := by
      rw [← List.tail_drop, hl, List.tail_cons]
    by_cases hlow : r.Low cutoff
    · have hle : lowEntries cutoff (r :: l) = lowEntries cutoff l + 1 := if_pos hlow
      have hhe : highEntries cutoff (r :: l) = highEntries cutoff l := if_pos hlow
      by_cases hlt : i < 3
      · have h := ih hl' hlt { low with entry := Function.update low.entry ⟨i, hlt⟩ r }
        rw [← fillLow_low hlow hlt] at h
        refine ⟨fun hf => ?_, fun hf => h.2 (by omega)⟩
        obtain ⟨i', j, low', high', h1, h2⟩ := h.1 (by omega)
        exact ⟨i', j, low', high', h1, h2.index, hhe ▸ h2.copied⟩
      · exact ⟨fun hf => absurd hf (by omega), fun _ => fillLow_full hlow.1 (by omega)⟩
    · have hhe : highEntries cutoff (r :: l) = r.clip cutoff :: l := if_neg hlow
      have hle : lowEntries cutoff (r :: l) = if r.base < cutoff then 1 else 0 := if_neg hlow
      by_cases hb : r.base < cutoff
      · rw [if_pos hb] at hle
        by_cases hlt : i < 3
        · refine ⟨fun _ => ⟨1, i, _, _, fillLow_cut hlow hb hlt, by decide, Or.inr ?_⟩,
            fun hf => absurd hlt (by omega)⟩
          rw [Nat.add_comm 1 i, hl', hhe, List.length_cons, Nat.add_comm]
          refine ⟨rfl, fun k => ?_⟩
          dsimp only
          by_cases hk : k = 0
          · subst hk
            simp
          · have hne : k.val ≠ 0 := fun he => hk (Fin.ext he)
            obtain ⟨n, hn⟩ := Nat.exists_eq_succ_of_ne_zero hne
            rw [if_neg (by omega), Function.update_of_ne hk, hn, List.getD_cons_succ]
            rfl
        · exact ⟨fun hf => absurd hf (by omega), fun _ => fillLow_full hb (by omega)⟩
      · rw [if_neg hb] at hle
        refine ⟨fun _ => ⟨0, i, _, _, fillLow_high hb hi, by decide, Or.inr ?_⟩,
          fun hf => absurd hi (by omega)⟩
        rw [Nat.zero_add, Nat.zero_add, hl, hhe, MapEntry.clip, if_neg hb]
        exact ⟨rfl, fun k => by rw [if_neg (Nat.not_lt_zero _), Nat.sub_zero]⟩

/-- The state of the page allocator at the end of pmm_init. -/
def bootPmm (mmap : UnfoldMmap) (im : PinionImage) : Pmm :=
  ⟨(getPinionRange im).1 - 0x200000,
    (getPinionRange im).2 - ((getPinionRange im).1 - 0x200000), mapCutoff mmap.total⟩

/-- What pmm_init leaves: the high map holds the high entries in order. -/
structure Initialized (mmap : UnfoldMmap) (im : PinionImage) (st : PmmState) : Prop where
  pmm : st.pmm = bootPmm mmap im
  cutoff : st.pmmMapCutoff = mapCutoff mmap.total
  count : st.pmmMapHigh.count = (highEntries (mapCutoff mmap.total) mmap.entry).length ∨
    highEntries (mapCutoff mmap.total) mmap.entry = [] ∧ st.pmmMapHigh.count ≤ 3
  entry : ∀ k : Fin 8, st.pmmMapHigh.entry k =
    (highEntries (mapCutoff mmap.total) mmap.entry).getD k ⟨0, 0⟩

/-- The split comes off exactly if both maps have room. -/
theorem pmmInit_spec (mmap : UnfoldMmap) (im : PinionImage) :
    (Fits (mapCutoff mmap.total) mmap.entry →
      ∃ st, pmmInit mmap im = some st ∧ Initialized mmap im st) ∧
    (¬ Fits (mapCutoff mmap.total) mmap.entry → pmmInit mmap im = none) := by
  have h := fillLow_spec (mapCutoff mmap.total) mmap.entry mmap.entry (i := 0) rfl (by decide)
    (.empty 3) (.empty 8)
  simp only [pmmInit]
  rw [Nat.zero_add] at h
  by_cases hlow : lowEntries (mapCutoff mmap.total) mmap.entry ≤ 3
  · obtain ⟨i, j, low, high, hf, hi, hcase⟩ := h.1 hlow
    rw [hf]
    have hh := fillHigh_spec (mmap.entry.drop (i + j)) (i := i) (by omega) high
    rcases hcase with ⟨hnil, hdrop, rfl⟩ | ⟨hlen, hent⟩
    · rw [hdrop, List.length_nil, Nat.add_zero, if_pos (by omega)] at hh
      obtain ⟨high', h1, h2, h3⟩ := hh
      refine ⟨fun _ => ?_, fun hc => absurd ⟨hlow, by simp [hnil]⟩ hc⟩
      simp only [hdrop, h1]
      refine ⟨_, rfl, rfl, rfl, Or.inr ⟨hnil, h2 ▸ hi⟩, fun k => (h3 k).trans ?_⟩
      simp [PmmMap.empty, hnil]
    · rw [hlen] at hh
      by_cases hhigh : (highEntries (mapCutoff mmap.total) mmap.entry).length ≤ 8
      · rw [if_pos hhigh] at hh
        obtain ⟨high', h1, h2, h3⟩ := hh
        refine ⟨fun _ => ?_, fun hc => absurd ⟨hlow, hhigh⟩ hc⟩
        simp only [h1]
        exact ⟨_, rfl, rfl, rfl, Or.inl h2, fun k => (h3 k).trans (hent k)⟩
      · rw [if_neg hhigh] at hh
        refine ⟨fun hc => absurd hc.2 hhigh, fun _ => ?_⟩
        simp only [hh]
  · refine ⟨fun hc => absurd hc.1 hlow, fun _ => ?_⟩
    simp only [h.2 hlow]

theorem fits_of_pmmInit {mmap : UnfoldMmap} {im : PinionImage} {st : PmmState}
    (h : pmmInit mmap im = some st) : Fits (mapCutoff mmap.total) mmap.entry := by
  by_contra hf
  rw [(pmmInit_spec mmap im).2 hf] at h
  cases h

/-- What pmm_init leaves, whenever it comes off. -/
theorem initialized_of_pmmInit {mmap : UnfoldMmap} {im : PinionImage} {st : PmmState}
    (h : pmmInit mmap im = some st) : Initialized mmap im st := by
  obtain ⟨st', hst', hinit⟩ := (pmmInit_spec mmap im).1 (fits_of_pmmInit h)
  rwa [Option.some.inj (h.symm.trans hst')]

end Split
end Pinion64
