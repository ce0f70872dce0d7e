import Pinion64.ModuleScans
import Pinion64.MapBounds

/-! The object list that init_multiboot makes of the modules: for which command strings an entry has
the name and the type that they give, and the strings are not left in reading them. -/
namespace Pinion64
open Bytes

namespace Unfold

/-- A list of at most three modules with the given command strings. The information block, the module
records and the strings lie outside the object buffer, and the buffer is clear. -/
structure ModuleList (L : Layout) (m : Memory 32) (mboot : Addr)
    (names : BitVec 32 → List (BitVec 8)) : Prop where
  flag : flags m mboot &&& mbootFlagMods ≠ 0
  count : modsCount m mboot ≤ 3
  block : Separate mboot 52 L.mbootStaticObjl 256
  records : ∀ i < modsCount m mboot, Separate (modAddr m mboot i) 16 L.mbootStaticObjl 256
  strings : ∀ i < modsCount m mboot, IsString m (stringOf m mboot i) (names i)
  apart : ∀ i < modsCount m mboot, ∀ k ≤ (names i).length,
    ¬ Within L.mbootStaticObjl 256 (stringOf m mboot i + BitVec.ofNat 32 k)
  clear : ∀ x, Within L.mbootStaticObjl 256 x → m x = 0

variable {L : Layout} {mboot i : BitVec 32} {names : BitVec 32 → List (BitVec 8)}
variable {o s t : Machine}

section Reads

variable (hl : ModuleList L o.mem mboot names) (h : ModState L.mbootStaticObjl o s)
include hl h

theorem ModState.modAddr : Unfold.modAddr s.mem mboot i = Unfold.modAddr o.mem mboot i := by
  have hb := block_congr fun x hx => h.outside x (hl.block.not_within hx)
  rw [Unfold.modAddr, hb.2.2.1, Unfold.modAddr]

/-- The module records are read as they are. -/
theorem ModState.module (hi : i < modsCount o.mem mboot) :
    modStart s.mem (Unfold.modAddr s.mem mboot i) = modStart o.mem (Unfold.modAddr o.mem mboot i) ∧
      modEnd s.mem (Unfold.modAddr s.mem mboot i) = modEnd o.mem (Unfold.modAddr o.mem mboot i) ∧
      stringOf s.mem mboot i = stringOf o.mem mboot i := by
  have hf : ∀ (a : Addr) (n : ℕ), a.toNat + n ≤ 16 →
      readLE s.mem (Unfold.modAddr o.mem mboot i + a) n =
        readLE o.mem (Unfold.modAddr o.mem mboot i + a) n := fun a n hn =>
    readLE_eq_of_within (by omega) fun x hx =>
      h.outside x ((hl.records i hi).not_within (within_field a hx hn (by decide)))
  have h0 := hf 0 4 (by decide)
  rw [add_zero] at h0
  unfold stringOf
  rw [h.modAddr hl]
  exact ⟨h0, hf 4 4 (by decide), hf 8 4 (by decide)⟩

/-- The strings are read as they are. -/
theorem ModState.string (hi : i < modsCount o.mem mboot) :
    IsString s.mem (stringOf o.mem mboot i) (names i) :=
  (hl.strings i hi).congr fun k hk => h.outside _ (hl.apart i hi k hk)

omit h in
/-- A string does not reach around the memory. -/
theorem ModuleList.length_lt (hi : i < modsCount o.mem mboot) : (names i).length + 1 < 2 ^ 32 := by
  by_contra hge
  have hlt := (L.mbootStaticObjl - stringOf o.mem mboot i).isLt
  refine hl.apart i hi (L.mbootStaticObjl - stringOf o.mem mboot i).toNat ?_ ?_
  · omega
  · rw [BitVec.ofNat_toNat, BitVec.setWidth_eq, add_sub_cancel, Within, sub_self]
    decide

end Reads

section CopyName

/-- The index up to which the loop copies, by the length of the first string. -/
def copied (first : List (BitVec 8)) : ℕ := min 47 first.length

/-- The offset of a character of the name. -/
theorem nameOffset_toNat (hi : i.toNat < 3) {k : ℕ} (hk : k < 48) :
    (entryOffset i + 16 + BitVec.ofNat 32 k).toNat = 24 + 64 * i.toNat + k := by
  have h16 : (16 + BitVec.ofNat 32 k).toNat = 16 + k := by
    rw [BitVec.toNat_add, BitVec.toNat_ofNat]
    change (16 + k % 2 ^ 32) % 2 ^ 32 = _
    omega
  rw [add_assoc, entryOffset_toNat hi (by omega), h16]
  omega

/-- What the loop copies and reads from an index on. -/
structure Copied (b mboot i : BitVec 32) (o : Machine) (l : List (BitVec 8)) (e j : ℕ)
    (s t : Machine) : Prop where
  state : ModState b o t
  frame : SameBut b (24 + 64 * i.toNat + j) (24 + 64 * i.toNat + 48) s.mem t.mem
  rest : ∀ k, e < k → k < 48 → objectName t.mem b i (BitVec.ofNat 32 k) =
    objectName s.mem b i (BitVec.ofNat 32 k)
  name : e ≤ l.length → ∀ k, j ≤ k → k ≤ e → objectName t.mem b i (BitVec.ofNat 32 k) = l.getD k 0
  seen : ∀ k, j ≤ k → k ≤ e → ⟨stringOf o.mem mboot i, BitVec.ofNat 32 k⟩ ∈ t.reads
  grows : s.reads ⊆ t.reads
  read : ∀ r ∈ t.reads, r ∈ s.reads ∨
    (r.string = stringOf o.mem mboot i ∨ r.string = stringOf o.mem mboot 0) ∧ r.index.toNat ≤ e

variable (hl : ModuleList L o.mem mboot names) (hi : i < modsCount o.mem mboot)
include hl hi

theorem ModuleList.index : i.toNat < 3 ∧ (0 : BitVec 32) < modsCount o.mem mboot := by
  have h3 := BitVec.le_def.mp hl.count
  change (modsCount o.mem mboot).toNat ≤ 3 at h3
  rw [BitVec.lt_def] at hi ⊢
  exact ⟨by omega, Nat.lt_of_le_of_lt (Nat.zero_le _) hi⟩

/-- One turn of the loop. -/
theorem copyName_step (h : ModState L.mbootStaticObjl o s) {j : ℕ} (hj : j ≤ copied (names 0)) :
    ∃ t, Copied L.mbootStaticObjl mboot i o (names i) j j s t ∧
      ∀ n, copyName mboot i (n + 1) (BitVec.ofNat 32 j) s =
        if (names 0).getD j 0 = 0 then t else copyName mboot i n (BitVec.ofNat 32 (j + 1)) t := by
  obtain ⟨h3, h0⟩ := hl.index hi
  have hj48 : j < 48 := by
    unfold copied at hj
    omega
  have hoff := nameOffset_toNat h3 hj48
  have hjn : (BitVec.ofNat 32 j).toNat = j := toNat_index (n := 48) (by omega) (by decide)
  obtain ⟨s₁, hs₁⟩ : ∃ s₁, (s.sawChar (stringOf o.mem mboot i) (BitVec.ofNat 32 j)).write8 .objl
      (entryOffset i + 16 + BitVec.ofNat 32 j)
      (s.mem (stringOf o.mem mboot i + BitVec.ofNat 32 j)) = s₁ := ⟨_, rfl⟩
  have hstate : ModState L.mbootStaticObjl o s₁ := by
    rw [← hs₁]
    exact h.sawChar.write (n := 1) (by omega)
  have hbase : s.objectList = L.mbootStaticObjl := h.objectList
  have hframe : SameBut L.mbootStaticObjl (24 + 64 * i.toNat + j) (24 + 64 * i.toNat + j + 1)
      s.mem s₁.mem := by
    rw [← hs₁, ← hoff, ← hbase]
    exact sameBut_writeLE (n := 1) (by omega)
  have hname : objectName s₁.mem L.mbootStaticObjl i (BitVec.ofNat 32 j) =
      s.mem (stringOf o.mem mboot i + BitVec.ofNat 32 j) := by
    rw [← hs₁, ← hbase]
    exact write8_self
  have hreads : s₁.reads = ⟨stringOf o.mem mboot i, BitVec.ofNat 32 j⟩ :: s.reads := by
    rw [← hs₁]
    rfl
  refine ⟨s₁.sawChar (stringOf o.mem mboot 0) (BitVec.ofNat 32 j), ⟨hstate.sawChar, ?_, ?_, ?_, ?_, ?_, ?_⟩,
    fun n => ?_⟩
  · exact hframe.mono le_rfl (by omega)
  · intro k hk hk48
    exact hframe.byte (Or.inr (by rw [nameOffset_toNat h3 hk48]; omega))
  · intro hlen k hjk hkj
    obtain rfl : k = j := by omega
    exact hname.trans ((h.string hl hi).read hlen)
  · intro k hjk hkj
    obtain rfl : k = j := by omega
    refine List.mem_cons_of_mem _ ?_
    rw [hreads]
    exact List.mem_cons_self
  · intro r hr
    refine List.mem_cons_of_mem _ ?_
    rw [hreads]
    exact List.mem_cons_of_mem _ hr
  · intro r hr
    rcases List.mem_cons.mp hr with rfl | hr
    · exact Or.inr ⟨Or.inr rfl, hjn.le⟩
    · rw [hreads] at hr
      rcases List.mem_cons.mp hr with rfl | hr
      · exact Or.inr ⟨Or.inl rfl, hjn.le⟩
      · exact Or.inl hr
  · have hfirst : s₁.mem (stringOf o.mem mboot 0 + BitVec.ofNat 32 j) = (names 0).getD j 0 :=
      (hstate.string hl h0).read (hj.trans (Nat.min_le_right ..))
    rw [copyName, (h.module hl hi).2.2, hs₁]
    simp only [(hstate.module hl h0).2.2]
    rw [index_succ, ← hfirst]
    rfl

omit hl hi in
/-- The turns of the loop, one after the other. -/
theorem Copied.cons {s' : Machine} {l : List (BitVec 8)} {e j : ℕ} {b : Addr} (h3 : i.toNat < 3)
    (h : Copied b mboot i o l j j s s') (h' : Copied b mboot i o l e (j + 1) s' t) (hje : j < e)
    (he : e < 48) : Copied b mboot i o l e j s t where
  state := h'.state
  frame := h.frame.trans (h'.frame.mono (by omega) le_rfl)
  rest k hk hk48 := (h'.rest k hk hk48).trans (h.rest k (by omega) hk48)
  name hlen k hjk hke := by
    rcases Nat.eq_or_lt_of_le hjk with rfl | hlt
    · rw [← h.name (by omega) j le_rfl le_rfl]
      exact h'.frame.byte (Or.inl (by rw [nameOffset_toNat h3 (by omega)]; omega))
    · exact h'.name hlen k hlt hke
  seen k hjk hke := by
    rcases Nat.eq_or_lt_of_le hjk with rfl | hlt
    · exact h'.grows (h.seen j le_rfl le_rfl)
    · exact h'.seen k hlt hke
  grows := fun r hr => h'.grows (h.grows hr)
  read r hr := by
    rcases h'.read r hr with hr | ⟨hs, hr⟩
    · rcases h.read r hr with hr | ⟨hs, hr⟩
      · exact Or.inl hr
      · exact Or.inr ⟨hs, by omega⟩
    · exact Or.inr ⟨hs, hr⟩

/-- The loop copies up to the end of the first string. -/
theorem copyName_copied (h : ModState L.mbootStaticObjl o s) {n j : ℕ}
    (hj : j ≤ copied (names 0)) (hn : j + n = 48) : Copied L.mbootStaticObjl mboot i o (names i)
      (copied (names 0)) j s (copyName mboot i n (BitVec.ofNat 32 j) s) := by
  obtain ⟨h3, h0⟩ := hl.index hi
  have he : copied (names 0) ≤ 47 := Nat.min_le_left ..
  induction n generalizing j s with
  | zero => exact absurd hn (by omega)
  | succ n ih =>
    obtain ⟨t, ht, hrun⟩ := copyName_step hl hi h hj
    rw [hrun]
    rcases Nat.eq_or_lt_of_le hj with he' | hlt
    · have hend : (if (names 0).getD j 0 = 0 then t
          else copyName mboot i n (BitVec.ofNat 32 (j + 1)) t) = t := by
        split_ifs with hz
        · rfl
        · have hlen : ¬ (names 0).length ≤ j := fun hc => hz (List.getD_eq_default _ _ hc)
          obtain rfl : n = 0 := by
            unfold copied at he'
            omega
          rfl
      rw [hend, ← he']
      exact ht
    · have hz : (names 0).getD j 0 ≠ 0 :=
        (hl.strings 0 h0).getD_ne_zero (lt_of_lt_of_le hlt (Nat.min_le_right ..))
      rw [if_neg hz]
      exact ht.cons h3 (ih ht.state hlt (by omega)) hlt (by omega)

end CopyName

section CopyModule

/-- The entry of a module before its type is determined. -/
structure Entered (b mboot i : BitVec 32) (o : Machine) (l : List (BitVec 8)) (e : ℕ)
    (s t : Machine) : Prop where
  state : ModState b o t
  frame : SameBut b (8 + 64 * i.toNat) (72 + 64 * i.toNat) s.mem t.mem
  base : objectBase t.mem b i = (modStart o.mem (modAddr o.mem mboot i)).setWidth 64
  size : objectSize t.mem b i =
    modEnd o.mem (modAddr o.mem mboot i) - modStart o.mem (modAddr o.mem mboot i)
  type : objectType t.mem b i = unfoldObjectUnknown
  name : e ≤ l.length → ∀ k < 48,
    objectName t.mem b i (BitVec.ofNat 32 k) = if k ≤ e ∧ k < 47 then l.getD k 0 else 0
  seen : ∀ k ≤ e, ⟨stringOf o.mem mboot i, BitVec.ofNat 32 k⟩ ∈ t.reads
  read : ∀ r ∈ t.reads, r ∈ s.reads ∨
    (r.string = stringOf o.mem mboot i ∨ r.string = stringOf o.mem mboot 0) ∧ r.index.toNat ≤ e

/-- A write into an entry, by its offset there. -/
theorem sameBut_field {b : Addr} (h : s.objectList = b) (h3 : i.toNat < 3) {f : Addr} {n : ℕ}
    (hf : f.toNat + n ≤ 64) (hn : 0 < n) (v : BitVec (8 * n)) :
    SameBut b (8 + 64 * i.toNat + f.toNat) (8 + 64 * i.toNat + f.toNat + n) s.mem
      (s.write .objl (entryOffset i + f) v).mem := by
  rw [← h, ← entryOffset_toNat h3 (by omega)]
  exact sameBut_writeLE (by rw [entryOffset_toNat h3 (by omega)]; omega)

/-- A field of an entry after a change elsewhere. -/
theorem same_field {b : Addr} {lo hi : ℕ} {m m' : Memory 32} (h : SameBut b lo hi m m')
    (h3 : i.toNat < 3) {f : Addr} {k : ℕ} (hf : f.toNat + k ≤ 64) (hk : 0 < k)
    (ho : 8 + 64 * i.toNat + f.toNat + k ≤ lo ∨ hi ≤ 8 + 64 * i.toNat + f.toNat) :
    readLE m' (b + (entryOffset i + f)) k = readLE m (b + (entryOffset i + f)) k := by
  have hoff := entryOffset_toNat (i := i) h3 (o := f) (by omega)
  exact h.readLE (by omega) (by omega)

/-- The base is the first field. -/
theorem objectBase_same {b : Addr} {lo hi : ℕ} {m m' : Memory 32} (h : SameBut b lo hi m m')
    (h3 : i.toNat < 3) (ho : 16 + 64 * i.toNat ≤ lo ∨ hi ≤ 8 + 64 * i.toNat) :
    objectBase m' b i = objectBase m b i := by
  have e0 : (0 : BitVec 32).toNat = 0 := rfl
  have hbase := same_field h h3 (f := 0) (k := 8) (by decide) (by decide) (by omega)
  rwa [add_zero] at hbase

variable (hl : ModuleList L o.mem mboot names) (hi : i < modsCount o.mem mboot)
include hl hi

theorem copyModule_entered (h : ModState L.mbootStaticObjl o s)
    (hclear : ∀ k < 48, objectName s.mem L.mbootStaticObjl i (BitVec.ofNat 32 k) = 0) :
    Entered L.mbootStaticObjl mboot i o (names i) (copied (names 0)) s (copyModule mboot i s) := by
  obtain ⟨h3, h0⟩ := hl.index hi
  obtain ⟨hstart, -, -⟩ := h.module hl hi
  obtain ⟨s₁, hs₁⟩ : ∃ s₁, s.write64 .objl (entryOffset i + 0)
    ((modStart s.mem (modAddr s.mem mboot i)).setWidth 64) = s₁ := ⟨_, rfl⟩
  have h₁ : ModState L.mbootStaticObjl o s₁ := hs₁ ▸ h.field (n := 8) h3 (by decide) (by decide)
  obtain ⟨hstart₁, hend₁, -⟩ := h₁.module hl hi
  obtain ⟨s₂, hs₂⟩ : ∃ s₂, s₁.write32 .objl (entryOffset i + 8)
    (modEnd s₁.mem (modAddr s₁.mem mboot i) - modStart s₁.mem (modAddr s₁.mem mboot i)) = s₂ :=
    ⟨_, rfl⟩
  have h₂ : ModState L.mbootStaticObjl o s₂ := hs₂ ▸ h₁.field (n := 4) h3 (by decide) (by decide)
  obtain ⟨s₃, hs₃⟩ : ∃ s₃, s₂.write32 .objl (entryOffset i + 12) unfoldObjectUnknown = s₃ :=
    ⟨_, rfl⟩
  have h₃ : ModState L.mbootStaticObjl o s₃ := hs₃ ▸ h₂.field (n := 4) h3 (by decide) (by decide)
  have hcopy := copyName_copied hl hi h₃ (Nat.zero_le _) (n := 48) rfl
  obtain ⟨s₄, hs₄⟩ : ∃ s₄, copyName mboot i 48 0 s₃ = s₄ := ⟨_, rfl⟩
  obtain ⟨s₅, hs₅⟩ : ∃ s₅, s₄.write8 .objl (entryOffset i + 63) 0 = s₅ := ⟨_, rfl⟩
  have hall : copyModule mboot i s = s₅ := by
    rw [← hs₅, ← hs₄, ← hs₃, ← hs₂, ← hs₁, add_zero]
    rfl
  rw [show copyName mboot i 48 (BitVec.ofNat 32 0) s₃ = s₄ from hs₄] at hcopy
  rw [hall]
  have f₁ := sameBut_field (n := 8) h.objectList h3 (f := 0) (by decide) (by decide)
    ((modStart s.mem (modAddr s.mem mboot i)).setWidth 64)
  have f₂ := sameBut_field (n := 4) h₁.objectList h3 (f := 8) (by decide) (by decide)
    (modEnd s₁.mem (modAddr s₁.mem mboot i) - modStart s₁.mem (modAddr s₁.mem mboot i))
  have f₃ := sameBut_field (n := 4) h₂.objectList h3 (f := 12) (by decide) (by decide)
    unfoldObjectUnknown
  have f₅ := sameBut_field (n := 1) hcopy.state.objectList h3 (f := 63) (by decide) (by decide) 0
  rw [show s.write .objl (entryOffset i + 0) _ = s₁ from hs₁] at f₁
  rw [show s₁.write .objl (entryOffset i + 8) _ = s₂ from hs₂] at f₂
  rw [show s₂.write .objl (entryOffset i + 12) _ = s₃ from hs₃] at f₃
  rw [show s₄.write .objl (entryOffset i + 63) _ = s₅ from hs₅] at f₅
  have f₄ := hcopy.frame
  have e0 : (0 : BitVec 32).toNat = 0 := rfl
  have e8 : (8 : BitVec 32).toNat = 8 := rfl
  have e12 : (12 : BitVec 32).toNat = 12 := rfl
  have e63 : (63 : BitVec 32).toNat = 63 := rfl
  rw [e0] at f₁
  rw [e8] at f₂
  rw [e12] at f₃
  rw [e63] at f₅
  have hname₃ : ∀ k < 48, objectName s₃.mem L.mbootStaticObjl i (BitVec.ofNat 32 k) = 0 := by
    intro k hk
    have hoff := nameOffset_toNat h3 hk
    rw [← hclear k hk]
    exact (f₃.byte (Or.inr (by omega))).trans <|
      (f₂.byte (Or.inr (by omega))).trans (f₁.byte (Or.inr (by omega)))
  refine ⟨?_, ?_, ?_, ?_, ?_, ?_, ?_, ?_⟩
  · exact hs₅ ▸ hcopy.state.field (n := 1) h3 (by decide) (by decide)
  · exact (f₁.mono (by omega) (by omega)).trans <| (f₂.mono (by omega) (by omega)).trans <|
      (f₃.mono (by omega) (by omega)).trans <| (f₄.mono (by omega) (by omega)).trans <|
      f₅.mono (by omega) (by omega)
  · have hself : readLE s₁.mem (L.mbootStaticObjl + (entryOffset i + 0)) 8 =
        (modStart s.mem (modAddr s.mem mboot i)).setWidth 64 := by
      rw [← hs₁, ← h.objectList]
      exact readLE_write_self (b := .objl) (n := 8) (by decide)
    rw [add_zero] at hself
    rw [objectBase_same f₅ h3 (Or.inl (by omega)), objectBase_same f₄ h3 (Or.inl (by omega)),
      objectBase_same f₃ h3 (Or.inl (by omega)), objectBase_same f₂ h3 (Or.inl (by omega)), objectBase,
      hself, hstart]
  · have hself : readLE s₂.mem (L.mbootStaticObjl + (entryOffset i + 8)) 4 =
        modEnd s₁.mem (modAddr s₁.mem mboot i) - modStart s₁.mem (modAddr s₁.mem mboot i) := by
      rw [← hs₂, ← h₁.objectList]
      exact readLE_write_self (b := .objl) (n := 4) (by decide)
    rw [objectSize, same_field f₅ h3 (by decide) (by decide) (Or.inl (by omega)),
      same_field f₄ h3 (by decide) (by decide) (Or.inl (by omega)),
      same_field f₃ h3 (by decide) (by decide) (Or.inl (by omega)), hself, hstart₁, hend₁]
  · have hself : readLE s₃.mem (L.mbootStaticObjl + (entryOffset i + 12)) 4 =
        unfoldObjectUnknown := by
      rw [← hs₃, ← h₂.objectList]
      exact readLE_write_self (b := .objl) (n := 4) (by decide)
    rw [objectType, same_field f₅ h3 (by decide) (by decide) (Or.inl (by omega)),
      same_field f₄ h3 (by decide) (by decide) (Or.inl (by omega)), hself]
  · intro hlen k hk
    by_cases h47 : k = 47
    · subst h47
      rw [if_neg (by omega), ← hs₅, ← hcopy.state.objectList, objectName]
      rw [show entryOffset i + 16 + BitVec.ofNat 32 47 = entryOffset i + 63 by rw [add_assoc]; rfl]
      exact write8_self
    · have hoff := nameOffset_toNat h3 hk
      have hlast : objectName s₅.mem L.mbootStaticObjl i (BitVec.ofNat 32 k) =
          objectName s₄.mem L.mbootStaticObjl i (BitVec.ofNat 32 k) :=
        f₅.byte (Or.inl (by omega))
      rw [hlast]
      by_cases hke : k ≤ copied (names 0)
      · rw [if_pos ⟨hke, by omega⟩, hcopy.name hlen k (Nat.zero_le k) hke]
      · rw [if_neg fun hc => hke hc.1, hcopy.rest k (by omega) hk, hname₃ k hk]
  · intro k hk
    rw [← hs₅]
    exact hcopy.seen k (Nat.zero_le k) hk
  · intro r hr
    rw [← hs₅] at hr
    have hr₃ : s₃.reads = s.reads := by
      rw [← hs₃, ← hs₂, ← hs₁]
      rfl
    rw [← hr₃]
    exact hcopy.read r hr

end CopyModule

section TypeModule

variable {fuel : ℕ} (hl : ModuleList L o.mem mboot names) (hi : i < modsCount o.mem mboot)
variable (h : ModState L.mbootStaticObjl o s) (hfuel : 2 ^ 32 < fuel)
  (ht : typeModule mboot i fuel s = some t)
include hl hi h hfuel ht

/-- The scan for the end of the string. -/
theorem typeModule_end : ∃ s₁, Scanned (stringOf o.mem mboot i) (names i).length s s₁ ∧
    ∃ q, findSlash (stringOf o.mem mboot i) fuel (BitVec.ofNat 32 (names i).length) s₁ = some q ∧
      t = if (matchPinion (stringOf o.mem mboot i) pinion64 (q.1 + 1) q.2).1 = 8 then
          (matchPinion (stringOf o.mem mboot i) pinion64 (q.1 + 1) q.2).2.write32 .objl
            (entryOffset i + 12) unfoldObjectPinion
        else (matchPinion (stringOf o.mem mboot i) pinion64 (q.1 + 1) q.2).2 := by
  have hlen := hl.length_lt hi
  obtain ⟨s₁, hs₁, hrun⟩ := findEnd_string (h.string hl hi) (by omega) (Nat.zero_add _)
  refine ⟨s₁, hs₁, ?_⟩
  have hend : findEnd (stringOf o.mem mboot i) fuel 0 s =
      some (BitVec.ofNat 32 (names i).length, s₁) := hrun fuel (by omega)
  unfold typeModule at ht
  simp only [(h.module hl hi).2.2, hend, Option.bind_eq_bind, Option.bind_some,
    Option.bind_eq_some_iff] at ht
  obtain ⟨q, hq, ht⟩ := ht
  exact ⟨q, hq, (Option.some.inj ht).symm⟩

/-- A string with a '/': the component behind the last one is compared. -/
theorem typeModule_slash {l l' : List (BitVec 8)} (hname : names i = l ++ 0x2F :: l')
    (hslash : (0x2F : BitVec 8) ∉ l') (hlen : (names i).length < 2 ^ 31) :
    SameBut L.mbootStaticObjl (20 + 64 * i.toNat) (24 + 64 * i.toNat) s.mem t.mem ∧
      (∀ r ∈ t.reads, r ∈ s.reads ∨
        r.string = stringOf o.mem mboot i ∧ r.index.toNat ≤ (names i).length) ∧
      objectType t.mem L.mbootStaticObjl i =
        if pinion64 <+: l' then unfoldObjectPinion else objectType s.mem L.mbootStaticObjl i := by
  obtain ⟨h3, -⟩ := hl.index hi
  obtain ⟨s₁, hs₁, q, hq, ht⟩ := typeModule_end hl hi h hfuel ht
  have hlen' : (names i).length = l.length + (l'.length + 1) := by
    rw [hname, List.length_append, List.length_cons]
  have hstring₁ : IsString s₁.mem (stringOf o.mem mboot i) (names i) := by
    rw [hs₁.mem]
    exact h.string hl hi
  rw [hname] at hstring₁ hlen
  obtain ⟨s₂, hs₂, hrun⟩ := findSlash_string hstring₁ hlen hslash le_rfl
  rw [← hname] at hs₂ hlen
  have hq' := hrun fuel (by omega)
  rw [← hlen', hq] at hq'
  obtain rfl := Option.some.inj hq'
  have hstring₂ : IsString s₂.mem (stringOf o.mem mboot i + BitVec.ofNat 32 (l.length + 1)) l' := by
    rw [hs₂.mem]
    have hdrop := hstring₁.drop (k := l.length + 1) (by rw [← hname]; omega)
    rwa [List.append_cons, List.drop_left' (by simp)] at hdrop
  simp only [index_succ] at ht
  have hmatch : (matchPinion (stringOf o.mem mboot i) pinion64 (BitVec.ofNat 32 (l.length + 1)) s₂).1 =
      pinion64.length ↔ pinion64 <+: l' := matchPinion_string (by decide) hstring₂
  have hscan : Scanned (stringOf o.mem mboot i) (names i).length s
      (matchPinion (stringOf o.mem mboot i) pinion64 (BitVec.ofNat 32 (l.length + 1)) s₂).2 :=
    hs₁.trans (hs₂.trans (matchPinion_scanned hstring₂ (by omega) (by omega)))
  obtain ⟨r, hr⟩ : ∃ r, matchPinion (stringOf o.mem mboot i) pinion64
    (BitVec.ofNat 32 (l.length + 1)) s₂ = r := ⟨_, rfl⟩
  rw [hr] at ht hmatch hscan
  have hobjl : r.2.objectList = L.mbootStaticObjl := hscan.objectList.trans h.objectList
  have hiff : r.1 = 8 ↔ pinion64 <+: l' := hmatch
  simp only [hiff] at ht
  split_ifs at ht ⊢ with hp
  · have hframe := sameBut_field (n := 4) hobjl h3 (f := 12) (by decide) (by decide)
      unfoldObjectPinion
    have e12 : (12 : BitVec 32).toNat = 12 := rfl
    rw [hscan.mem] at hframe
    rw [ht]
    refine ⟨hframe.mono (by omega) (by omega), hscan.read, ?_⟩
    rw [← hobjl]
    exact readLE_write_self (b := .objl) (n := 4) (by decide)
  · rw [ht, hscan.mem]
    exact ⟨SameBut.refl, hscan.read, rfl⟩

/-- A string without a '/' is left at its start. -/
theorem typeModule_before (hslash : (0x2F : BitVec 8) ∉ names i)
    (hlen : (names i).length < 2 ^ 31) : ⟨stringOf o.mem mboot i, -1⟩ ∈ t.reads := by
  obtain ⟨s₁, hs₁, q, hq, ht⟩ := typeModule_end hl hi h hfuel ht
  have hstring₁ : IsString s₁.mem (stringOf o.mem mboot i) (names i) := by
    rw [hs₁.mem]
    exact h.string hl hi
  have hmem : ⟨stringOf o.mem mboot i, -1⟩ ∈
      (matchPinion (stringOf o.mem mboot i) pinion64 (q.1 + 1) q.2).2.reads :=
    (matchPinion_extends pinion64).reads.subset (findSlash_before hstring₁ hslash hlen le_rfl hq)
  rw [ht]
  split_ifs
  · exact hmem
  · exact hmem

/-- A string whose length is negative as an int is left at its end. -/
theorem typeModule_behind (hlen : 2 ^ 31 ≤ (names i).length) :
    ⟨stringOf o.mem mboot i, BitVec.ofNat 32 ((names i).length + 1)⟩ ∈ t.reads := by
  obtain ⟨s₁, hs₁, q, hq, ht⟩ := typeModule_end hl hi h hfuel ht
  have hlt := hl.length_lt hi
  have hneg : ¬ 0 ≤ (BitVec.ofNat 32 (names i).length).toInt := by
    rw [BitVec.toInt_eq_toNat_cond, toNat_index le_rfl (by omega)]
    split <;> omega
  have hq₁ : q.1 = BitVec.ofNat 32 (names i).length := by
    cases fuel with
    | zero => exact absurd hfuel (by omega)
    | succ fuel =>
      rw [findSlash, if_neg fun hc => hneg hc.2] at hq
      rw [← Option.some.inj hq]
  have hmem : ⟨stringOf o.mem mboot i, q.1 + 1⟩ ∈
      (matchPinion (stringOf o.mem mboot i) pinion64 (q.1 + 1) q.2).2.reads := matchPinion_first
  rw [ht, ← index_succ, ← hq₁]
  split_ifs
  · exact hmem
  · exact hmem

end TypeModule

/-- The entry of a module is what the module says. -/
structure Entry (m m' : Memory 32) (b mboot i : BitVec 32) (l : List (BitVec 8)) : Prop where
  base : objectBase m' b i = (modStart m (modAddr m mboot i)).setWidth 64
  size : objectSize m' b i = modEnd m (modAddr m mboot i) - modStart m (modAddr m mboot i)
  name : ∀ k < 48, objectName m' b i (BitVec.ofNat 32 k) = (l.take 47).getD k 0
  type : objectType m' b i = unfoldObjectPinion ↔ lastComponent l = pinion64

/-- A character of a module string, or the one that terminates it. -/
def Inside (m : Memory 32) (mboot : Addr) (names : BitVec 32 → List (BitVec 8)) (r : CharRead) : Prop :=
  ∃ i < modsCount m mboot, r.string = stringOf m mboot i ∧ r.index.toNat ≤ (names i).length

theorem Inside.index_le {r : CharRead} (h : Inside o.mem mboot names r)
    (hl : ModuleList L o.mem mboot names) (hi : i < modsCount o.mem mboot)
    (hr : r.string = stringOf o.mem mboot i) : r.index.toNat ≤ (names i).length := by
  obtain ⟨j, hj, hs, hle⟩ := h
  have hj' := hl.strings j hj
  rw [hs.symm.trans hr] at hj'
  rw [← hj'.unique (hl.strings i hi)]
  exact hle

theorem getD_take {l : List (BitVec 8)} {n k : ℕ} :
    (l.take n).getD k 0 = if k < n then l.getD k 0 else 0 := by
  rw [List.getD_eq_getElem?_getD, List.getElem?_take, List.getD_eq_getElem?_getD]
  split_ifs <;> rfl

/-- The command strings that are translated after a first one: they are not shorter than what is
copied and at most one character longer, and they have a '/' before a component that does not go on
after "pinion64". -/
structure WellNamed (first l : List (BitVec 8)) : Prop where
  copied : min 47 first.length ≤ l.length
  whole : min 47 l.length ≤ first.length + 1
  slash : (0x2F : BitVec 8) ∈ l
  short : l.length < 2 ^ 31
  component : pinion64 <+: lastComponent l → lastComponent l = pinion64

section Module

variable {fuel : ℕ} (hl : ModuleList L o.mem mboot names) (hi : i < modsCount o.mem mboot)
variable (h : ModState L.mbootStaticObjl o s) (hfuel : 2 ^ 32 < fuel)
  (ht : typeModule mboot i fuel (copyModule mboot i s) = some t)
variable (hclear : ∀ k < 48, objectName s.mem L.mbootStaticObjl i (BitVec.ofNat 32 k) = 0)
include hl hi h hfuel ht hclear

/-- What becomes of a module whose string is not left. -/
theorem module_made (hslash : (0x2F : BitVec 8) ∈ names i) (hshort : (names i).length < 2 ^ 31)
    (hcopied : copied (names 0) ≤ (names i).length) :
    SameBut L.mbootStaticObjl (8 + 64 * i.toNat) (72 + 64 * i.toNat) s.mem t.mem ∧
      objectBase t.mem L.mbootStaticObjl i = (modStart o.mem (modAddr o.mem mboot i)).setWidth 64 ∧
      objectSize t.mem L.mbootStaticObjl i =
        modEnd o.mem (modAddr o.mem mboot i) - modStart o.mem (modAddr o.mem mboot i) ∧
      (∀ k < 48, objectName t.mem L.mbootStaticObjl i (BitVec.ofNat 32 k) =
        if k ≤ copied (names 0) ∧ k < 47 then (names i).getD k 0 else 0) ∧
      objectType t.mem L.mbootStaticObjl i =
        (if pinion64 <+: lastComponent (names i) then unfoldObjectPinion else unfoldObjectUnknown) ∧
      ∀ r ∈ t.reads, r ∈ s.reads ∨ Inside o.mem mboot names r := by
  obtain ⟨h3, h0⟩ := hl.index hi
  obtain ⟨l, l', hname, hn⟩ := exists_lastComponent hslash
  have he := copyModule_entered hl hi h hclear
  obtain ⟨hframe, hread, htype⟩ := typeModule_slash hl hi he.state hfuel ht hname hn hshort
  have hcomp : lastComponent (names i) = l' := by rw [hname, lastComponent_append hn]
  rw [hcomp, ← he.type]
  refine ⟨he.frame.trans (hframe.mono (by omega) (by omega)), ?_, ?_, ?_, htype, ?_⟩
  · exact (objectBase_same hframe h3 (Or.inl (by omega))).trans he.base
  · have e8 : (8 : BitVec 32).toNat = 8 := rfl
    exact (same_field hframe h3 (f := 8) (k := 4) (by decide) (by decide) (Or.inl (by omega))).trans
      he.size
  · intro k hk
    have hoff := nameOffset_toNat h3 hk
    rw [← he.name hcopied k hk]
    exact hframe.byte (Or.inr (by omega))
  · intro r hr
    rcases hread r hr with hr | ⟨hs, hr⟩
    · rcases he.read r hr with hr | ⟨hs | hs, hr⟩
      · exact Or.inl hr
      · exact Or.inr ⟨i, hi, hs, hr.trans hcopied⟩
      · exact Or.inr ⟨0, h0, hs, hr.trans (Nat.min_le_right ..)⟩
    · exact Or.inr ⟨i, hi, hs, hr⟩

theorem module_entry (hw : WellNamed (names 0) (names i)) :
    Entry o.mem t.mem L.mbootStaticObjl mboot i (names i) := by
  obtain ⟨-, hbase, hsize, hname, htype, -⟩ :=
    module_made hl hi h hfuel ht hclear hw.slash hw.short hw.copied
  refine ⟨hbase, hsize, fun k hk => ?_, ?_⟩
  · rw [hname k hk, getD_take]
    by_cases h47 : k < 47
    · by_cases hk' : k ≤ copied (names 0)
      · rw [if_pos ⟨hk', h47⟩, if_pos h47]
      · have hwhole := hw.whole
        rw [if_neg fun hc => hk' hc.1, if_pos h47, List.getD_eq_default]
        unfold copied at hk'
        omega
    · rw [if_neg fun hc => h47 hc.2, if_neg h47]
  · rw [htype]
    split_ifs with hp
    · exact ⟨fun _ => hw.component hp, fun _ => rfl⟩
    · refine ⟨fun hc => absurd hc (by decide), fun hc => absurd ?_ hp⟩
      rw [hc]

/-- A string that is not left. -/
theorem module_read (hread : ∀ r ∈ t.reads, Inside o.mem mboot names r) :
    (0x2F : BitVec 8) ∈ names i ∧ (names i).length < 2 ^ 31 ∧
      copied (names 0) ≤ (names i).length := by
  have hlt := hl.length_lt hi
  have hmade := copyModule_entered hl hi h hclear
  have hbehind : ⟨stringOf o.mem mboot i, BitVec.ofNat 32 ((names i).length + 1)⟩ ∉ t.reads := by
    intro hr
    have hle := (hread _ hr).index_le hl hi rfl
    rw [toNat_index le_rfl hlt] at hle
    omega
  have hshort : (names i).length < 2 ^ 31 := by
    by_contra hge
    exact hbehind (typeModule_behind hl hi hmade.state hfuel ht (by omega))
  refine ⟨?_, hshort, ?_⟩
  · by_contra hn
    have hle := (hread _ (typeModule_before hl hi hmade.state hfuel ht hn hshort)).index_le hl hi rfl
    change 2 ^ 32 - 1 ≤ _ at hle
    omega
  · by_contra hgt
    exact hbehind ((typeModule_extends ht).reads.subset (hmade.seen _ (by omega)))

/-- If moreover its entry comes out right, the string is as the loops need it. -/
theorem module_wellNamed (hslash : (0x2F : BitVec 8) ∈ names i)
    (hshort : (names i).length < 2 ^ 31) (hcopied : copied (names 0) ≤ (names i).length)
    (he : Entry o.mem t.mem L.mbootStaticObjl mboot i (names i)) : WellNamed (names 0) (names i) := by
  obtain ⟨-, -, -, hname, htype, -⟩ := module_made hl hi h hfuel ht hclear hslash hshort hcopied
  refine ⟨hcopied, ?_, hslash, hshort, fun hp => ?_⟩
  · by_contra hgt
    have hk := he.name ((names 0).length + 1) (by omega)
    rw [hname _ (by omega), getD_take, if_neg, if_pos (by omega)] at hk
    · exact (hl.strings i hi).getD_ne_zero (by omega) hk.symm
    · unfold copied
      omega
  · rw [if_pos hp] at htype
    exact he.type.mp htype

end Module

section Loop

/-- An entry in front of a change. -/
theorem Entry.same {m m' m'' : Memory 32} {b : Addr} {l : List (BitVec 8)} {lo hi : ℕ}
    (h : Entry m m' b mboot i l) (hf : SameBut b lo hi m' m'') (h3 : i.toNat < 3)
    (hlo : 72 + 64 * i.toNat ≤ lo) : Entry m m'' b mboot i l where
  base := (objectBase_same hf h3 (Or.inl (by omega))).trans h.base
  size := by
    have e8 : (8 : BitVec 32).toNat = 8 := rfl
    exact (same_field hf h3 (f := 8) (k := 4) (by decide) (by decide) (Or.inl (by omega))).trans h.size
  name k hk := by
    have hoff := nameOffset_toNat h3 hk
    rw [← h.name k hk]
    exact hf.byte (Or.inl (by omega))
  type := by
    have e12 : (12 : BitVec 32).toNat = 12 := rfl
    rw [← h.type, objectType, objectType,
      same_field hf h3 (f := 12) (k := 4) (by decide) (by decide) (Or.inl (by omega))]

/-- The entries from an index on are clear. -/
def Clear (m : Memory 32) (b : Addr) (i : ℕ) : Prop :=
  ∀ a : Addr, 8 + 64 * i ≤ a.toNat → a.toNat < 256 → m (b + a) = 0

theorem Clear.name {m : Memory 32} {b : Addr} (h : Clear m b i.toNat) (h3 : i.toNat < 3) :
    ∀ k < 48, objectName m b i (BitVec.ofNat 32 k) = 0 := by
  intro k hk
  have hoff := nameOffset_toNat h3 hk
  exact h _ (by omega) (by omega)

theorem Clear.next {m m' : Memory 32} {b : Addr} {n : ℕ} (h : Clear m b n)
    (hf : SameBut b (8 + 64 * n) (72 + 64 * n) m m') : Clear m' b (n + 1) := by
  intro a ha ha'
  rw [hf.byte (Or.inr (by omega))]
  exact h a (by omega) ha'

variable {s' : Machine} {n fuel : ℕ} (hl : ModuleList L o.mem mboot names)
include hl

/-- One turn of the loop. -/
theorem modLoop_turn (hi : i < modsCount o.mem mboot) (h : ModState L.mbootStaticObjl o s)
    (hrun : modLoop mboot (fuel + 1) i s = some s') :
    (∃ t, typeModule mboot i fuel (copyModule mboot i s) = some t ∧
      ModState L.mbootStaticObjl o t ∧ modLoop mboot fuel (i + 1) t = some s') ∧
      (i + 1).toNat = i.toNat + 1 := by
  obtain ⟨h3, -⟩ := hl.index hi
  rw [modLoop, h.block hl.block, if_pos hi] at hrun
  obtain ⟨t, ht, hrun⟩ := Option.bind_eq_some_iff.mp hrun
  refine ⟨⟨t, ht, typeModule_stable modState_stable (copyModule_stable modState_stable h h3) h3 ht,
    hrun⟩, ?_⟩
  rw [BitVec.toNat_add]
  change (i.toNat + 1) % 2 ^ 32 = _
  omega

omit hl in
/-- The last turn. -/
theorem modLoop_last (hblock : modsCount s.mem mboot = modsCount o.mem mboot)
    (hi : ¬ i < modsCount o.mem mboot) (hrun : modLoop mboot (fuel + 1) i s = some s') : s' = s := by
  rw [modLoop, hblock, if_neg hi] at hrun
  exact (Option.some.inj hrun).symm

omit hl in
theorem lt_next {j : BitVec 32} (hnext : (i + 1).toNat = i.toNat + 1) :
    j < i + 1 ↔ j < i ∨ j = i := by
  rw [BitVec.lt_def, BitVec.lt_def, hnext, ← BitVec.toNat_inj]
  omega

/-- Modules that are named well are translated. -/
theorem modLoop_translated (hw : ∀ j < modsCount o.mem mboot, WellNamed (names 0) (names j))
    (h : ModState L.mbootStaticObjl o s) (hclear : Clear s.mem L.mbootStaticObjl i.toNat)
    (hn : i.toNat + n = (modsCount o.mem mboot).toNat) (hfuel : 2 ^ 32 + n < fuel)
    (hrun : modLoop mboot fuel i s = some s')
    (hdone : ∀ j < i, Entry o.mem s.mem L.mbootStaticObjl mboot j (names j))
    (hread : ∀ r ∈ s.reads, Inside o.mem mboot names r) :
    (∀ j < modsCount o.mem mboot, Entry o.mem s'.mem L.mbootStaticObjl mboot j (names j)) ∧
      ∀ r ∈ s'.reads, Inside o.mem mboot names r := by
  obtain ⟨fuel, rfl⟩ : ∃ k, fuel = k + 1 := ⟨fuel - 1, by omega⟩
  induction n generalizing i s fuel with
  | zero =>
    have hi : i = modsCount o.mem mboot := BitVec.eq_of_toNat_eq (by omega)
    have hlast := modLoop_last (h.block hl.block) (by rw [hi]; exact BitVec.lt_irrefl _) hrun
    rw [hlast]
    exact ⟨hi ▸ hdone, hread⟩
  | succ n ih =>
    have hi : i < modsCount o.mem mboot := by
      rw [BitVec.lt_def]
      omega
    obtain ⟨h3, -⟩ := hl.index hi
    obtain ⟨⟨t, ht, hstate, hrest⟩, hnext⟩ := modLoop_turn hl hi h hrun
    have hwell := hw i hi
    obtain ⟨hframe, -, -, -, -, hnew⟩ := module_made hl hi h (by omega) ht (hclear.name h3)
      hwell.slash hwell.short hwell.copied
    have hentry := module_entry hl hi h (by omega) ht (hclear.name h3) hwell
    obtain ⟨fuel, rfl⟩ : ∃ k, fuel = k + 1 := ⟨fuel - 1, by omega⟩
    refine ih hstate (hnext ▸ hclear.next hframe) (by omega) (fun j hj => ?_)
      (fun r hr => (hnew r hr).elim (hread r) id) fuel (by omega) hrest
    rcases (lt_next hnext).mp hj with hj | rfl
    · have hji := BitVec.lt_def.mp hj
      exact (hdone j hj).same hframe (by omega) (by omega)
    · exact hentry

/-- Modules that are translated are named well. -/
theorem modLoop_wellNamed (h : ModState L.mbootStaticObjl o s)
    (hclear : Clear s.mem L.mbootStaticObjl i.toNat)
    (hn : i.toNat + n = (modsCount o.mem mboot).toNat) (hfuel : 2 ^ 32 + n < fuel)
    (hrun : modLoop mboot fuel i s = some s')
    (hentry : ∀ j < modsCount o.mem mboot, Entry o.mem s'.mem L.mbootStaticObjl mboot j (names j))
    (hread : ∀ r ∈ s'.reads, Inside o.mem mboot names r) :
    SameBut L.mbootStaticObjl (8 + 64 * i.toNat) 256 s.mem s'.mem ∧
      ∀ j < modsCount o.mem mboot, ¬ j < i → WellNamed (names 0) (names j) := by
  obtain ⟨fuel, rfl⟩ : ∃ k, fuel = k + 1 := ⟨fuel - 1, by omega⟩
  induction n generalizing i s fuel with
  | zero =>
    have hi : i = modsCount o.mem mboot := BitVec.eq_of_toNat_eq (by omega)
    have hlast := modLoop_last (h.block hl.block) (by rw [hi]; exact BitVec.lt_irrefl _) hrun
    rw [hlast]
    exact ⟨SameBut.refl, fun j hj hji => absurd (hi.symm ▸ hj) hji⟩
  | succ n ih =>
    have hi : i < modsCount o.mem mboot := by
      rw [BitVec.lt_def]
      omega
    obtain ⟨h3, -⟩ := hl.index hi
    obtain ⟨⟨t, ht, hstate, hrest⟩, hnext⟩ := modLoop_turn hl hi h hrun
    obtain ⟨hslash, hshort, hcopied⟩ := module_read hl hi h (by omega) ht (hclear.name h3)
      fun r hr => hread r ((modLoop_extends hrest).reads.subset hr)
    obtain ⟨hframe, -, -, -, -, -⟩ := module_made hl hi h (by omega) ht (hclear.name h3)
      hslash hshort hcopied
    obtain ⟨fuel, rfl⟩ : ∃ k, fuel = k + 1 := ⟨fuel - 1, by omega⟩
    obtain ⟨hlater, hwell⟩ := ih hstate (hnext ▸ hclear.next hframe) (by omega) fuel (by omega) hrest
    -- the entry has not changed since its turn, so it came out right then
    have hmade : Entry o.mem t.mem L.mbootStaticObjl mboot i (names i) :=
      (hentry i hi).same (fun x hx => (hlater x hx).symm) h3 (by omega)
    refine ⟨(hframe.mono le_rfl (by omega)).trans (hlater.mono (by omega) le_rfl), fun j hj hji => ?_⟩
    by_cases he : j = i
    · rw [he]
      exact module_wellNamed hl hi h (by omega) ht (hclear.name h3) hslash hshort hcopied hmade
    · exact hwell j hj fun hc => ((lt_next hnext).mp hc).elim hji he

end Loop

section Whole

variable {fuel : ℕ} {s' : Machine}

/-- The object list before the first module. -/
theorem initModules_clear (hl : ModuleList L o.mem mboot names) (v : BitVec 32) :
    Clear (({ o with objectList := L.mbootStaticObjl } : Machine).write32 .objl 0 v).mem
      L.mbootStaticObjl 0 := by
  intro a ha ha'
  have hframe : SameBut L.mbootStaticObjl 0 (0 + 4) o.mem
      (({ o with objectList := L.mbootStaticObjl } : Machine).write32 .objl 0 v).mem :=
    sameBut_writeLE (o := 0) (n := 4) (by decide)
  rw [hframe.byte (Or.inr (by omega))]
  refine hl.clear _ ?_
  rw [Within, add_sub_cancel_left]
  exact ha'

theorem initModules_translated (hl : ModuleList L o.mem mboot names) (hr : o.reads = [])
    (hfuel : 2 ^ 32 + 3 < fuel) (hrun : initModules L fuel o mboot = some s')
    (hw : ∀ i < modsCount o.mem mboot, WellNamed (names 0) (names i)) :
    (∀ i < modsCount o.mem mboot, Entry o.mem s'.mem L.mbootStaticObjl mboot i (names i)) ∧
      ∀ r ∈ s'.reads, Inside o.mem mboot names r := by
  have hcount := BitVec.le_def.mp hl.count
  change (modsCount o.mem mboot).toNat ≤ 3 at hcount
  rw [initModules, if_pos hl.flag] at hrun
  refine modLoop_translated hl hw (initModules_start o _) (initModules_clear hl _) (Nat.zero_add _)
    (by omega) hrun (fun j hj => absurd hj (BitVec.not_lt_zero)) fun r hr' => ?_
  have hnil : r ∈ o.reads := hr'
  rw [hr] at hnil
  exact absurd hnil List.not_mem_nil

theorem initModules_wellNamed (hl : ModuleList L o.mem mboot names) (hfuel : 2 ^ 32 + 3 < fuel)
    (hrun : initModules L fuel o mboot = some s')
    (hentry : ∀ i < modsCount o.mem mboot, Entry o.mem s'.mem L.mbootStaticObjl mboot i (names i))
    (hread : ∀ r ∈ s'.reads, Inside o.mem mboot names r) :
    ∀ i < modsCount o.mem mboot, WellNamed (names 0) (names i) := by
  have hcount := BitVec.le_def.mp hl.count
  change (modsCount o.mem mboot).toNat ≤ 3 at hcount
  rw [initModules, if_pos hl.flag] at hrun
  obtain ⟨-, hwell⟩ := modLoop_wellNamed hl (initModules_start o _) (initModules_clear hl _)
    (i := 0) (Nat.zero_add _) (by omega) hrun hentry hread
  exact fun i hi => hwell i hi BitVec.not_lt_zero

end Whole

/-- From the machine on that the part for the memory map leaves, the modules are translated, without
leaving a string, if and only if they are named well. -/
theorem modules_translated_exactly (L : Layout) (s t : Machine) (mboot : Addr)
    (names : BitVec 32 → List (BitVec 8)) (hr : s.reads = [])
    (hmap : ∃ n, ∀ fuel, n ≤ fuel → initMap L fuel s mboot = some t)
    (hl : ModuleList L t.mem mboot names) :
    (∃ s', Returns L s mboot s' ∧ s'.objectList = L.mbootStaticObjl ∧
      (∀ i < modsCount t.mem mboot, Entry t.mem s'.mem s'.objectList mboot i (names i)) ∧
      ∀ r ∈ s'.reads, Inside t.mem mboot names r) ↔
      ∀ i < modsCount t.mem mboot, WellNamed (names 0) (names i) := by
  obtain ⟨n, hmap⟩ := hmap
  have hreads : t.reads = [] := (initMap_same (hmap n le_rfl)).1.trans hr
  constructor
  · rintro ⟨s', ⟨k, hrun⟩, hobjl, hentry, hread⟩
    have hlast := hrun (n + k + (2 ^ 32 + 4)) (by omega)
    rw [initMultiboot, hmap _ (by omega), Option.bind_some] at hlast
    rw [hobjl] at hentry
    exact initModules_wellNamed hl (by omega) hlast hentry hread
  · intro hw
    obtain ⟨s', -, hobjl, hrun⟩ := initModules_total (L := L) hl.block fun _ => BitVec.le_def.mp hl.count
    have hlast : initModules L (2 ^ 32 + 4) t mboot = some s' := hrun _ (by omega)
    obtain ⟨hentry, hread⟩ := initModules_translated hl hreads (by omega) hlast hw
    refine ⟨s', ⟨n + (2 ^ 32 + 4), fun fuel hf => ?_⟩, hobjl hl.flag, ?_, hread⟩
    · rw [initMultiboot, hmap fuel (by omega), Option.bind_some, hrun fuel (by omega)]
    · rw [hobjl hl.flag]
      exact hentry

section Sample

/-- An information block at 0x9000 with two modules. The string of the first is "/pinion64", and its
image lies at 0x1000000. -/
def twoModules (f : BitVec 8) (l image : List (BitVec 8)) : Memory 32 := fun x =>
  ([f, 0, 0, 0, 0, 0, 0, 0, 0, 0, 0, 0, 0, 0, 0, 0, 0, 0, 0, 0, 2, 0, 0, 0, 0x00, 0x91, 0, 0] :
    List (BitVec 8)).getD (x - 0x9000).toNat <|
  ([0, 0, 0, 1, 0, 1, 0, 1, 0x00, 0x92, 0, 0, 0, 0, 0, 0,
    0, 0, 0, 2, 0, 2, 0, 2, 0x00, 0x93, 0, 0, 0, 0, 0, 0] : List (BitVec 8)).getD
      (x - 0x9100).toNat <|
  (0x2F :: pinion64).getD (x - 0x9200).toNat <| l.getD (x - 0x9300).toNat <|
  image.getD (x - 0x1000000).toNat 0

def twoNames (l : List (BitVec 8)) (i : BitVec 32) : List (BitVec 8) :=
  if i = 0 then 0x2F :: pinion64 else l

/-- "/boot/conf" -/
def bootConf : List (BitVec 8) := [0x2F, 0x62, 0x6F, 0x6F, 0x74, 0x2F, 0x63, 0x6F, 0x6E, 0x66]

/-- "/boot/config" -/
def bootConfig : List (BitVec 8) := bootConf ++ [0x69, 0x67]

theorem twoModules_list {f : BitVec 8} {l image : List (BitVec 8)}
    (hflags : flags (twoModules f l image) 0x9000 &&& mbootFlagMods ≠ 0)
    (hcount : modsCount (twoModules f l image) 0x9000 = 2)
    (haddr : modsAddr (twoModules f l image) 0x9000 = 0x9100)
    (hfirst : stringOf (twoModules f l image) 0x9000 0 = 0x9200)
    (hsecond : stringOf (twoModules f l image) 0x9000 1 = 0x9300)
    (hl : IsString (twoModules f l image) 0x9300 l) (hlen : l.length ≤ 64)
    (himage : image.length ≤ 128) :
    ModuleList sampleLayout (twoModules f l image) 0x9000 (twoNames l) := by
  have hcases : ∀ i < modsCount (twoModules f l image) 0x9000, i = 0 ∨ i = 1 := by
    intro i hi
    rw [hcount, BitVec.lt_def] at hi
    change i.toNat < 2 at hi
    rw [← BitVec.toNat_inj, ← BitVec.toNat_inj]
    change i.toNat = 0 ∨ i.toNat = 1
    omega
  have hfar : ∀ (a : Addr) (k : ℕ), a = 0x9200 ∨ a = 0x9300 → k ≤ 64 →
      ¬ Within sampleLayout.mbootStaticObjl 256 (a + BitVec.ofNat 32 k) := by
    intro a k ha hk
    rw [Within, BitVec.toNat_sub, BitVec.toNat_add, BitVec.toNat_ofNat]
    change ¬ (2 ^ 32 - 0x100100 + (a.toNat + k % 2 ^ 32) % 2 ^ 32) % 2 ^ 32 < 256
    rcases ha with rfl | rfl
    · change ¬ (2 ^ 32 - 0x100100 + (0x9200 + k % 2 ^ 32) % 2 ^ 32) % 2 ^ 32 < 256
      omega
    · change ¬ (2 ^ 32 - 0x100100 + (0x9300 + k % 2 ^ 32) % 2 ^ 32) % 2 ^ 32 < 256
      omega
  refine ⟨hflags, by rw [hcount]; decide, by decide, fun i hi => ?_, fun i hi => ?_,
    fun i hi k hk => ?_, fun x hx => ?_⟩
  · rw [modAddr, haddr]
    rcases hcases i hi with rfl | rfl
    · decide
    · decide
  · rcases hcases i hi with rfl | rfl
    · rw [hfirst]
      refine ⟨rfl, (by decide : (0 : BitVec 8) ∉ 0x2F :: pinion64), ?_⟩
      have hblock : 28 ≤ ((0x9209 : Addr) - 0x9000).toNat := by decide
      rw [show (0x9200 + BitVec.ofNat 32 (twoNames l 0).length : Addr) = 0x9209 from rfl, twoModules,
        List.getD_eq_default _ _ hblock, List.getD_eq_default _ _ (by decide),
        List.getD_eq_default _ _ (by decide), List.getD_eq_default _ _ (hlen.trans (by decide)),
        List.getD_eq_default _ _ (himage.trans (by decide))]
    · rw [hsecond]
      exact hl
  · rcases hcases i hi with rfl | rfl
    · rw [hfirst]
      exact hfar _ k (Or.inl rfl) (hk.trans (by decide : (0x2F :: pinion64).length ≤ 64))
    · rw [hsecond]
      exact hfar _ k (Or.inr rfl) (hk.trans hlen)
  · rw [Within, BitVec.toNat_sub] at hx
    change (2 ^ 32 - 0x100100 + x.toNat) % 2 ^ 32 < 256 at hx
    have hlt := x.isLt
    have hoff : ∀ a : Addr, 0x9000 ≤ a.toNat → a.toNat ≤ 0x9300 ∨ a.toNat = 0x1000000 →
        128 ≤ (x - a).toNat := by
      intro a ha ha'
      rw [BitVec.toNat_sub]
      omega
    rw [twoModules, List.getD_eq_default, List.getD_eq_default, List.getD_eq_default,
      List.getD_eq_default, List.getD_eq_default]
    · exact himage.trans (hoff 0x1000000 (by decide) (by decide))
    · exact le_trans (hlen.trans (by decide)) (hoff 0x9300 (by decide) (by decide))
    · exact le_trans (by decide) (hoff 0x9200 (by decide) (by decide))
    · exact le_trans (by decide) (hoff 0x9100 (by decide) (by decide))
    · exact le_trans (by decide : 28 ≤ 128) (hoff 0x9000 (by decide) (by decide))

theorem bootConf_list : ModuleList sampleLayout (twoModules 8 bootConf []) 0x9000 (twoNames bootConf) :=
  twoModules_list (by decide +kernel) (by decide +kernel) (by decide +kernel) (by decide +kernel)
    (by decide +kernel) ⟨by decide +kernel, by decide, by decide +kernel⟩ (by decide) (by decide)

theorem bootConfig_list :
    ModuleList sampleLayout (twoModules 8 bootConfig []) 0x9000 (twoNames bootConfig) :=
  twoModules_list (by decide +kernel) (by decide +kernel) (by decide +kernel) (by decide +kernel)
    (by decide +kernel) ⟨by decide +kernel, by decide, by decide +kernel⟩ (by decide) (by decide)

theorem initMap_twoModules {l : List (BitVec 8)}
    (hflags : ¬ flags (twoModules 8 l []) 0x9000 &&& mbootFlagMmap ≠ 0) (fuel : ℕ) :
    initMap sampleLayout fuel (.start (twoModules 8 l [])) 0x9000 =
      some (.start (twoModules 8 l [])) :=
  if_neg hflags

/-- "/pinion64" and "/boot/conf" are translated. -/
theorem modules_translated_exactly_two : ∃ s', Returns sampleLayout (.start (twoModules 8 bootConf []))
      0x9000 s' ∧
    Entry (twoModules 8 bootConf []) s'.mem s'.objectList 0x9000 0 (0x2F :: pinion64) ∧
      Entry (twoModules 8 bootConf []) s'.mem s'.objectList 0x9000 1 bootConf := by
  have hcount : modsCount (twoModules 8 bootConf []) 0x9000 = 2 := by decide +kernel
  obtain ⟨s', hrun, -, hentry, -⟩ := (modules_translated_exactly sampleLayout
    (.start (twoModules 8 bootConf [])) (.start (twoModules 8 bootConf [])) 0x9000 (twoNames bootConf) rfl
    ⟨0, fun fuel _ => initMap_twoModules (by decide +kernel) fuel⟩ bootConf_list).mpr (by
      intro i _
      by_cases hi : i = 0
      · rw [hi]
        exact ⟨by decide, by decide, by decide, by decide, by decide⟩
      · have hname : twoNames bootConf i = bootConf := if_neg hi
        rw [hname]
        exact ⟨by decide, by decide, by decide, by decide, by decide⟩)
  have h0 : (0 : BitVec 32) < modsCount (twoModules 8 bootConf []) 0x9000 := by
    rw [hcount]
    decide
  have h1 : (1 : BitVec 32) < modsCount (twoModules 8 bootConf []) 0x9000 := by
    rw [hcount]
    decide
  exact ⟨s', hrun, hentry 0 h0, hentry 1 h1⟩

/-- After "/pinion64" the name "/boot/config" is cut off. -/
theorem second_module_cut : ¬ ∃ s',
    Returns sampleLayout (.start (twoModules 8 bootConfig [])) 0x9000 s' ∧
    s'.objectList = sampleLayout.mbootStaticObjl ∧
    (∀ i < modsCount (twoModules 8 bootConfig []) 0x9000, Entry (twoModules 8 bootConfig []) s'.mem
      s'.objectList 0x9000 i (twoNames bootConfig i)) ∧
    ∀ r ∈ s'.reads, Inside (twoModules 8 bootConfig []) 0x9000 (twoNames bootConfig) r := by
  rintro ⟨s', ⟨n, hrun⟩, hobjl, hentry, hread⟩
  have hlast := hrun (n + (2 ^ 32 + 4)) (by omega)
  rw [initMultiboot, initMap_twoModules (by decide +kernel), Option.bind_some] at hlast
  rw [hobjl] at hentry
  have hwell := initModules_wellNamed bootConfig_list (by omega) hlast hentry hread 1 (by decide +kernel)
  exact absurd hwell.whole (by decide)

end Sample

end Unfold
end Pinion64
