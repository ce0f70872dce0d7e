import Pinion64.Multiboot

/-! The module loop of init_multiboot: it always comes to an end, and it keeps to the object buffer
for up to three modules. -/
namespace Pinion64
open Bytes

namespace Unfold

/-- Since the machine `s` only the object list has been written, and inside its buffer. -/
structure ModState (b : Addr) (s t : Machine) : Prop where
  objectList : t.objectList = b
  mmap : t.mmap = s.mmap
  outside : ∀ x, ¬ Within b 256 x → t.mem x = s.mem x
  fits : ∀ w ∈ t.writes, w ∈ s.writes ∨ w.Fits

variable {L : Layout} {b mboot string i j : BitVec 32} {fuel k n : ℕ} {s t t' : Machine}

/-- A property of a machine that holds on when one of the first three entries is written or a
character is read. -/
structure Stable (P : Machine → Prop) : Prop where
  field : ∀ {t : Machine} {i o : BitVec 32} {n : ℕ} (v : BitVec (8 * n)), P t → i.toNat < 3 →
    o.toNat + n ≤ 64 → 0 < n → P (t.write .objl (entryOffset i + o) v)
  sawChar : ∀ {t : Machine} {string j : BitVec 32}, P t → P (t.sawChar string j)

section Preserved

variable {P : Machine → Prop} (hP : Stable P) (h : P t)
include hP h

theorem copyName_stable (hi : i.toNat < 3) (hj : j.toNat + n = 48) : P (copyName mboot i n j t) := by
  induction n generalizing j t with
  | zero => exact h
  | succ n ih =>
    have h16 : (16 + j).toNat = 16 + j.toNat := by
      rw [BitVec.toNat_add]
      change (16 + j.toNat) % 2 ^ 32 = _
      omega
    have hnext : (j + 1).toNat = j.toNat + 1 := by
      rw [BitVec.toNat_add]
      change (j.toNat + 1) % 2 ^ 32 = _
      omega
    have hwrite : ∀ v : BitVec 8, P ((t.sawChar (stringOf t.mem mboot i) j).write8 .objl
        (entryOffset i + 16 + j) v) := by
      intro v
      rw [BitVec.add_assoc]
      exact hP.field (n := 1) v (hP.sawChar h) hi (by omega) (by decide)
    rw [copyName]
    split_ifs with hz
    · exact hP.sawChar (hwrite _)
    · exact ih (hP.sawChar (hwrite _)) (by omega)

theorem copyModule_stable (hi : i.toNat < 3) : P (copyModule mboot i t) := by
  have hbase : ∀ v : Word, P (t.write64 .objl (entryOffset i) v) := by
    intro v
    rw [← BitVec.add_zero (entryOffset i)]
    exact hP.field (n := 8) v h hi (by decide) (by decide)
  have hsize := fun v w => hP.field (n := 4) (o := 8) w (hbase v) hi (by decide) (by decide)
  have htype := fun v w => hP.field (n := 4) (o := 12) unfoldObjectUnknown (hsize v w) hi
    (by decide) (by decide)
  have hname : ∀ v w, P (copyName mboot i 48 0 (((t.write64 .objl (entryOffset i) v).write32 .objl
      (entryOffset i + 8) w).write32 .objl (entryOffset i + 12) unfoldObjectUnknown)) :=
    fun v w => copyName_stable hP (htype v w) hi rfl
  exact hP.field (n := 1) 0 (hname _ _) hi (by decide) (by decide)

theorem findEnd_stable {p : BitVec 32 × Machine} (hp : findEnd string fuel j t = some p) : P p.2 := by
  induction fuel generalizing j t with
  | zero => exact absurd hp (by simp [findEnd])
  | succ fuel ih =>
    rw [findEnd] at hp
    split_ifs at hp with hz
    · exact ih (hP.sawChar h) hp
    · rw [← Option.some.inj hp]
      exact hP.sawChar h

theorem findSlash_stable {p : BitVec 32 × Machine} (hp : findSlash string fuel j t = some p) :
    P p.2 := by
  induction fuel generalizing j t with
  | zero => exact absurd hp (by simp [findSlash])
  | succ fuel ih =>
    rw [findSlash] at hp
    split_ifs at hp with hz
    · exact ih (hP.sawChar h) hp
    · rw [← Option.some.inj hp]
      exact hP.sawChar h

theorem matchPinion_stable (cs : List (BitVec 8)) : P (matchPinion string cs j t).2 := by
  induction cs generalizing j t with
  | nil => exact h
  | cons c cs ih =>
    rw [matchPinion]
    split_ifs with hz hne
    · exact hP.sawChar h
    · exact hP.sawChar h
    · exact ih (hP.sawChar h)

theorem typeModule_stable (hi : i.toNat < 3) (ht : typeModule mboot i fuel t = some t') : P t' := by
  unfold typeModule at ht
  simp only [Option.bind_eq_bind, Option.bind_eq_some_iff] at ht
  obtain ⟨p, hp, q, hq, ht⟩ := ht
  have hm : P (matchPinion (stringOf t.mem mboot i) pinion64 (q.1 + 1) q.2).2 :=
    matchPinion_stable hP (findSlash_stable hP (findEnd_stable hP h hp) hq) pinion64
  rw [← Option.some.inj ht]
  split_ifs with hk
  · exact hP.field (n := 4) _ hm hi (by decide) (by decide)
  · exact hm

/-- The property holds after the loop over up to three modules. -/
theorem modLoop_stable (h3 : ∀ t, P t → (modsCount t.mem mboot).toNat ≤ 3)
    (hrun : modLoop mboot fuel i t = some t') : P t' := by
  induction fuel generalizing i t with
  | zero => exact absurd hrun (by simp [modLoop])
  | succ fuel ih =>
    rw [modLoop] at hrun
    split_ifs at hrun with hi
    · have hle := h3 t h
      have hlt := BitVec.lt_def.mp hi
      obtain ⟨t₁, ht₁, hrun⟩ := Option.bind_eq_some_iff.mp hrun
      exact ih (typeModule_stable hP (copyModule_stable hP h (by omega)) (by omega) ht₁) hrun
    · rw [← Option.some.inj hrun]
      exact h

end Preserved

section ModState

theorem entryOffset_toNat (hi : i.toNat < 3) {o : Addr} (ho : o.toNat < 64) :
    (entryOffset i + o).toNat = 8 + 64 * i.toNat + o.toNat := by
  rw [entryOffset, BitVec.toNat_add, BitVec.toNat_add, BitVec.toNat_mul]
  change ((8 + 64 * i.toNat % 2 ^ 32) % 2 ^ 32 + o.toNat) % 2 ^ 32 = _
  omega

theorem ModState.write (h : ModState b s t) {o : Addr} {v : BitVec (8 * n)} (ho : o.toNat + n ≤ 256) :
    ModState b s (t.write .objl o v) where
  objectList := h.objectList
  mmap := h.mmap
  outside x hx := by
    rw [← h.outside x hx]
    rw [← h.objectList] at hx
    exact write_outside ho hx
  fits w hw := by
    rcases List.mem_cons.mp hw with rfl | hw
    · exact Or.inr ho
    · exact h.fits w hw

theorem ModState.sawChar (h : ModState b s t) : ModState b s (t.sawChar string j) :=
  ⟨h.objectList, h.mmap, h.outside, h.fits⟩

/-- A field of one of the first three entries. -/
theorem ModState.field (h : ModState b s t) (hi : i.toNat < 3) {o : Addr} {v : BitVec (8 * n)}
    (ho : o.toNat + n ≤ 64) (hn : 0 < n) : ModState b s (t.write .objl (entryOffset i + o) v) :=
  h.write (by rw [entryOffset_toNat hi (by omega)]; omega)

theorem modState_stable : Stable (ModState b s) where
  field _ h hi ho hn := h.field hi ho hn
  sawChar h := h.sawChar

end ModState

section Returns

/-- The scan for the end stops at a zero byte at the latest. -/
theorem findEnd_total (hz : t.mem (string + (j + BitVec.ofNat 32 k)) = 0) :
    ∃ p, ∀ fuel, k < fuel → findEnd string fuel j t = some p := by
  induction k generalizing j t with
  | zero =>
    rw [BitVec.add_zero] at hz
    refine ⟨(j, t.sawChar string j), fun fuel hf => ?_⟩
    obtain ⟨fuel, rfl⟩ : ∃ k, fuel = k + 1 := ⟨fuel - 1, by omega⟩
    rw [findEnd, if_neg (not_not.mpr hz)]
  | succ k ih =>
    by_cases hj : t.mem (string + j) = 0
    · refine ⟨(j, t.sawChar string j), fun fuel hf => ?_⟩
      obtain ⟨fuel, rfl⟩ : ∃ k, fuel = k + 1 := ⟨fuel - 1, by omega⟩
      rw [findEnd, if_neg (not_not.mpr hj)]
    · have hnext : j + 1 + BitVec.ofNat 32 k = j + BitVec.ofNat 32 (k + 1) := next_add j k
      obtain ⟨p, hp⟩ := ih (j := j + 1) (t := t.sawChar string j) (by rw [hnext]; exact hz)
      refine ⟨p, fun fuel hf => ?_⟩
      obtain ⟨fuel, rfl⟩ : ∃ k, fuel = k + 1 := ⟨fuel - 1, by omega⟩
      rw [findEnd, if_pos hj, hp fuel (by omega)]

/-- The scan for '/' stops below the index 0 at the latest. -/
theorem findSlash_total (hk : j.toInt < k) :
    ∃ p, ∀ fuel, k < fuel → findSlash string fuel j t = some p := by
  induction k generalizing j t with
  | zero =>
    refine ⟨(j, t.sawChar string j), fun fuel hf => ?_⟩
    obtain ⟨fuel, rfl⟩ : ∃ k, fuel = k + 1 := ⟨fuel - 1, by omega⟩
    rw [findSlash, if_neg fun hc => by omega]
  | succ k ih =>
    by_cases hc : t.mem (string + j) ≠ 0x2F ∧ 0 ≤ j.toInt
    · have hprev : (j - 1).toInt = j.toInt - 1 := by
        have hlt : j.toInt < 2 ^ 31 := BitVec.toInt_lt
        rw [BitVec.toInt_sub]
        exact Int.bmod_eq_of_le (by change -(2 ^ 31) ≤ j.toInt - 1; omega)
          (by change j.toInt - 1 < 2 ^ 31; omega)
      obtain ⟨p, hp⟩ := ih (j := j - 1) (t := t.sawChar string j) (by omega)
      refine ⟨p, fun fuel hf => ?_⟩
      obtain ⟨fuel, rfl⟩ : ∃ k, fuel = k + 1 := ⟨fuel - 1, by omega⟩
      rw [findSlash, if_pos hc, hp fuel (by omega)]
    · refine ⟨(j, t.sawChar string j), fun fuel hf => ?_⟩
      obtain ⟨fuel, rfl⟩ : ∃ k, fuel = k + 1 := ⟨fuel - 1, by omega⟩
      rw [findSlash, if_neg hc]

/-- The name ends with a zero byte. -/
theorem copyModule_zero : ∃ x, (copyModule mboot i t).mem x = 0 := by
  unfold copyModule
  exact ⟨_, write8_self⟩

theorem typeModule_total {x : Addr} (hz : t.mem x = 0) :
    ∃ t', ∀ fuel, 2 ^ 32 < fuel → typeModule mboot i fuel t = some t' := by
  obtain ⟨string, hs⟩ : ∃ a, stringOf t.mem mboot i = a := ⟨_, rfl⟩
  have hx : string + (0 + BitVec.ofNat 32 (x - string).toNat) = x := by
    rw [BitVec.ofNat_toNat, BitVec.setWidth_eq]
    ring
  have hend : t.mem (string + (0 + BitVec.ofNat 32 (x - string).toNat)) = 0 := by rw [hx, hz]
  obtain ⟨p, hp⟩ := findEnd_total hend
  have hlt := (x - string).isLt
  have hslash : ∃ q, ∀ fuel, 2 ^ 31 < fuel → findSlash string fuel p.1 p.2 = some q :=
    findSlash_total BitVec.toInt_lt
  obtain ⟨q, hq⟩ := hslash
  obtain ⟨r, hr⟩ : ∃ r, matchPinion string pinion64 (q.1 + 1) q.2 = r := ⟨_, rfl⟩
  refine ⟨if r.1 = 8 then r.2.write32 .objl (entryOffset i + 12) unfoldObjectPinion else r.2,
    fun fuel hf => ?_⟩
  simp only [typeModule, hs, hp fuel (by omega), hq fuel (by omega), Option.bind_eq_bind,
    Option.bind_some, hr]

end Returns

section Log

/-- The logs of a machine only grow. -/
structure Extends (s t : Machine) : Prop where
  writes : s.writes <:+ t.writes
  reads : s.reads <:+ t.reads

theorem Extends.refl : Extends t t := ⟨List.suffix_rfl, List.suffix_rfl⟩

theorem Extends.trans (h : Extends s t) (h' : Extends t t') : Extends s t' :=
  ⟨h.writes.trans h'.writes, h.reads.trans h'.reads⟩

theorem extends_write {o : Addr} {v : BitVec (8 * n)} (c : Buffer) : Extends t (t.write c o v) :=
  ⟨List.suffix_cons .., List.suffix_rfl⟩

theorem extends_sawChar : Extends t (t.sawChar string j) :=
  ⟨List.suffix_rfl, List.suffix_cons ..⟩

theorem copyName_extends : Extends t (copyName mboot i n j t) := by
  induction n generalizing j t with
  | zero => exact Extends.refl
  | succ n ih =>
    rw [copyName]
    have hone : ∀ first, Extends t (((t.sawChar (stringOf t.mem mboot i) j).write8 .objl
        (entryOffset i + 16 + j) (t.mem (stringOf t.mem mboot i + j))).sawChar first j) :=
      fun first => extends_sawChar.trans ((extends_write (n := 1) .objl).trans extends_sawChar)
    split_ifs with hz
    · exact hone _
    · exact (hone _).trans ih

theorem copyModule_extends : Extends t (copyModule mboot i t) := by
  unfold copyModule
  refine Extends.trans ?_ (extends_write (n := 1) .objl)
  refine Extends.trans ?_ copyName_extends
  exact (extends_write (n := 8) .objl).trans
    ((extends_write (n := 4) .objl).trans (extends_write (n := 4) .objl))

theorem findEnd_extends {p : BitVec 32 × Machine} (hp : findEnd string fuel j t = some p) :
    Extends t p.2 := by
  induction fuel generalizing j t with
  | zero => exact absurd hp (by simp [findEnd])
  | succ fuel ih =>
    rw [findEnd] at hp
    split_ifs at hp with hz
    · exact extends_sawChar.trans (ih hp)
    · rw [← Option.some.inj hp]
      exact extends_sawChar

theorem findSlash_extends {p : BitVec 32 × Machine} (hp : findSlash string fuel j t = some p) :
    Extends t p.2 := by
  induction fuel generalizing j t with
  | zero => exact absurd hp (by simp [findSlash])
  | succ fuel ih =>
    rw [findSlash] at hp
    split_ifs at hp with hz
    · exact extends_sawChar.trans (ih hp)
    · rw [← Option.some.inj hp]
      exact extends_sawChar

theorem matchPinion_extends (cs : List (BitVec 8)) :
    Extends t (matchPinion string cs j t).2 := by
  induction cs generalizing j t with
  | nil => exact Extends.refl
  | cons c cs ih =>
    rw [matchPinion]
    split_ifs with hz hne
    · exact extends_sawChar
    · exact extends_sawChar
    · exact extends_sawChar.trans ih

theorem typeModule_extends (ht : typeModule mboot i fuel t = some t') : Extends t t' := by
  unfold typeModule at ht
  simp only [Option.bind_eq_bind, Option.bind_eq_some_iff] at ht
  obtain ⟨p, hp, q, hq, ht⟩ := ht
  have hscans : Extends t (matchPinion (stringOf t.mem mboot i) pinion64 (q.1 + 1) q.2).2 :=
    (findEnd_extends hp).trans ((findSlash_extends hq).trans (matchPinion_extends pinion64))
  rw [← Option.some.inj ht]
  split_ifs with hk
  · exact hscans.trans (extends_write (n := 4) .objl)
  · exact hscans

theorem modLoop_extends (h : modLoop mboot fuel i t = some t') : Extends t t' := by
  induction fuel generalizing i t with
  | zero => exact absurd h (by simp [modLoop])
  | succ fuel ih =>
    rw [modLoop] at h
    split_ifs at h with hi
    · obtain ⟨t₁, ht₁, h⟩ := Option.bind_eq_some_iff.mp h
      exact copyModule_extends.trans ((typeModule_extends ht₁).trans (ih h))
    · rw [Option.some.inj h]
      exact Extends.refl

end Log

section Loop

variable (hb : Separate mboot 52 b 256)
include hb

theorem ModState.block (h : ModState b s t) :
    modsCount t.mem mboot = modsCount s.mem mboot :=
  (block_congr fun x hx => h.outside x (hb.not_within hx)).2.1

/-- The loop over up to three modules. -/
theorem modLoop_total (h : ModState b s t) (hn : i.toNat + n = (modsCount s.mem mboot).toNat)
    (h3 : (modsCount s.mem mboot).toNat ≤ 3) : ∃ t', ModState b s t' ∧
      ∀ fuel, 2 ^ 32 + n < fuel → modLoop mboot fuel i t = some t' := by
  induction n generalizing i t with
  | zero =>
    refine ⟨t, h, fun fuel hf => ?_⟩
    obtain ⟨fuel, rfl⟩ : ∃ k, fuel = k + 1 := ⟨fuel - 1, by omega⟩
    rw [modLoop, h.block hb, if_neg]
    rw [BitVec.lt_def]
    omega
  | succ n ih =>
    have hlt : i < modsCount s.mem mboot := by
      rw [BitVec.lt_def]
      omega
    have hnext : (i + 1).toNat = i.toNat + 1 := by
      rw [BitVec.toNat_add]
      change (i.toNat + 1) % 2 ^ 32 = _
      omega
    have hcopy : ModState b s (copyModule mboot i t) := copyModule_stable modState_stable h (by omega)
    have hzero : ∃ x, (copyModule mboot i t).mem x = 0 := copyModule_zero
    obtain ⟨x, hx⟩ := hzero
    have htype : ∃ t₁, ∀ fuel, 2 ^ 32 < fuel →
        typeModule mboot i fuel (copyModule mboot i t) = some t₁ := typeModule_total hx
    obtain ⟨t₁, ht₁⟩ := htype
    obtain ⟨t', ht', hrun⟩ := ih (i := i + 1)
      (typeModule_stable modState_stable hcopy (i := i) (by omega) (ht₁ (2 ^ 32 + 1) (by omega))) (by omega)
    refine ⟨t', ht', fun fuel hf => ?_⟩
    obtain ⟨fuel, rfl⟩ : ∃ k, fuel = k + 1 := ⟨fuel - 1, by omega⟩
    rw [modLoop, h.block hb, if_pos hlt, ht₁ fuel (by omega), Option.bind_some,
      hrun fuel (by omega)]

/-- The name of the fourth module ends behind the end of the buffer. -/
theorem modLoop_full (h : ModState b s t) (hi : i.toNat ≤ 3)
    (h3 : 3 < (modsCount s.mem mboot).toNat) (hrun : modLoop mboot fuel i t = some t') :
    ∃ w ∈ t'.writes, ¬ w.Fits := by
  induction fuel generalizing i t with
  | zero => exact absurd hrun (by simp [modLoop])
  | succ fuel ih =>
    have hlt : i < modsCount s.mem mboot := by
      rw [BitVec.lt_def]
      omega
    have hnext : (i + 1).toNat = i.toNat + 1 := by
      rw [BitVec.toNat_add]
      change (i.toNat + 1) % 2 ^ 32 = _
      omega
    rw [modLoop, h.block hb, if_pos hlt] at hrun
    obtain ⟨t₁, ht₁, hrun⟩ := Option.bind_eq_some_iff.mp hrun
    by_cases h2 : i.toNat < 3
    · exact ih (typeModule_stable modState_stable (copyModule_stable modState_stable h h2) h2 ht₁) (by omega) hrun
    · have h3' : i.toNat = 3 := by omega
      obtain rfl : i = 3 := BitVec.eq_of_toNat_eq h3'
      refine ⟨⟨.objl, (entryOffset 3 + 63).toNat, 1⟩, ?_, by decide⟩
      exact ((typeModule_extends ht₁).trans (modLoop_extends hrun)).writes.subset List.mem_cons_self

end Loop

section InitModules

variable (hb : Separate mboot 52 L.mbootStaticObjl 256)

theorem initModules_extends (h : initModules L fuel t mboot = some t') : Extends t t' := by
  rw [initModules] at h
  split_ifs at h with hflag
  · have hset : Extends t { t with objectList := L.mbootStaticObjl } :=
      ⟨List.suffix_rfl, List.suffix_rfl⟩
    exact hset.trans ((extends_write (n := 4) .objl).trans (modLoop_extends h))
  · rw [Option.some.inj h]
    exact Extends.refl

/-- The number of the modules is written. -/
theorem initModules_start (t : Machine) (v : BitVec 32) :
    ModState L.mbootStaticObjl t
      (({ t with objectList := L.mbootStaticObjl } : Machine).write32 .objl 0 v) := by
  have hset : ModState L.mbootStaticObjl t { t with objectList := L.mbootStaticObjl } :=
    ⟨rfl, rfl, fun _ _ => rfl, fun _ => Or.inl⟩
  exact hset.write (n := 4) (o := 0) (v := v) (by decide)

include hb

/-- Without a module list or with up to three modules. -/
theorem initModules_total
    (h3 : flags t.mem mboot &&& mbootFlagMods ≠ 0 → (modsCount t.mem mboot).toNat ≤ 3) :
    ∃ t', (t'.mmap = t.mmap ∧ (∀ x, ¬ Within L.mbootStaticObjl 256 x → t'.mem x = t.mem x) ∧
      ∀ w ∈ t'.writes, w ∈ t.writes ∨ w.Fits) ∧
      (flags t.mem mboot &&& mbootFlagMods ≠ 0 → t'.objectList = L.mbootStaticObjl) ∧
      ∀ fuel, 2 ^ 32 + 3 < fuel → initModules L fuel t mboot = some t' := by
  by_cases hflag : flags t.mem mboot &&& mbootFlagMods ≠ 0
  · obtain ⟨t', ht', hrun⟩ := modLoop_total hb
      (initModules_start (L := L) t (modsCount t.mem mboot)) (i := 0) (Nat.zero_add _) (h3 hflag)
    refine ⟨t', ⟨ht'.mmap, ht'.outside, ht'.fits⟩, fun _ => ht'.objectList, fun fuel hf => ?_⟩
    have hle := h3 hflag
    rw [initModules, if_pos hflag]
    exact hrun fuel (by omega)
  · refine ⟨t, ⟨rfl, fun _ _ => rfl, fun _ => Or.inl⟩, fun h => absurd h hflag, fun fuel _ => ?_⟩
    rw [initModules, if_neg hflag]

/-- With more than three modules the object buffer overflows. -/
theorem initModules_full (hflag : flags t.mem mboot &&& mbootFlagMods ≠ 0) (h3 : 3 < (modsCount t.mem mboot).toNat)
    (hrun : initModules L fuel t mboot = some t') : ∃ w ∈ t'.writes, ¬ w.Fits := by
  rw [initModules, if_pos hflag] at hrun
  exact modLoop_full hb (initModules_start (L := L) t _) (i := 0) (Nat.zero_le 3) h3 hrun

end InitModules

end Unfold
end Pinion64
