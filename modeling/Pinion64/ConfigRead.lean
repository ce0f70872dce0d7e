import Pinion64.Config
import Mathlib.Tactic.Ring
import Mathlib.Data.List.Infix

/-! Lookups in the configuration: a request is answered by the first entry that agrees with it as
far as the shorter strings go, and a value is read as a number modulo 2^64. -/
namespace Pinion64

section Strings

theorem stringFrom_append {v : List Byte} (hv : nul ∉ v) (rest : List Byte) :
    Config.stringFrom (v ++ nul :: rest) = some v := by
  induction v with
  | nil => exact if_pos rfl
  | cons c cs ih =>
    rw [List.mem_cons, not_or] at hv
    rw [List.cons_append, Config.stringFrom, if_neg (Ne.symm hv.1), ih hv.2]
    rfl

/-- A string ends at the first NUL. -/
theorem stringFrom_eq_some {l v : List Byte} (h : Config.stringFrom l = some v) :
    nul ∉ v ∧ ∃ rest, l = v ++ nul :: rest := by
  induction l generalizing v with
  | nil => cases h
  | cons c cs ih =>
    unfold Config.stringFrom at h
    split at h
    · rename_i hc
      obtain rfl := Option.some.inj h
      exact ⟨List.not_mem_nil, cs, by rw [hc]; rfl⟩
    · rename_i hc
      obtain ⟨w, hw, rfl⟩ := Option.map_eq_some_iff.mp h
      obtain ⟨hnul, rest, rfl⟩ := ih hw
      refine ⟨fun hm => ?_, rest, rfl⟩
      rcases List.mem_cons.mp hm with he | he
      · exact hc he.symm
      · exact hnul he

/-- The strings agree as far as the shorter one goes. -/
def Comparable (a b : List Byte) : Prop := a <+: b ∨ b <+: a

instance (a b : List Byte) : Decidable (Comparable a b) := inferInstanceAs (Decidable (_ ∨ _))

theorem comparable_cons (c : Byte) (a b : List Byte) :
    Comparable (c :: a) (c :: b) ↔ Comparable a b := by
  unfold Comparable
  rw [List.prefix_cons_inj, List.prefix_cons_inj]

theorem strcmpFrom_eq {l a b : List Byte} (h : Config.stringFrom l = some a) (hb : nul ∉ b) :
    Config.strcmpFrom l b = some (decide (¬ Comparable a b)) := by
  induction l generalizing a b with
  | nil => cases h
  | cons c cs ih =>
    cases b with
    | nil => simp [Config.strcmpFrom, Comparable]
    | cons d ds =>
      rw [List.mem_cons, not_or] at hb
      unfold Config.stringFrom at h
      unfold Config.strcmpFrom
      split at h
      · rename_i hc
        obtain rfl := Option.some.inj h
        rw [if_pos hc]
        simp [Comparable]
      · rename_i hc
        obtain ⟨w, hw, rfl⟩ := Option.map_eq_some_iff.mp h
        rw [if_neg hc]
        by_cases hcd : c = d
        · rw [if_neg (not_not.mpr hcd), ih hw hb.2, hcd]
          simp only [comparable_cons]
        · rw [if_pos hcd]
          have hno : ¬ Comparable (c :: w) (d :: ds) := by
            rintro (⟨t, ht⟩ | ⟨t, ht⟩)
            · exact hcd (List.cons.inj ht).1
            · exact hcd (List.cons.inj ht).1.symm
          rw [decide_eq_true hno]

end Strings

section Lookup
variable {k : Config} {s p : List Byte}

namespace Config

/-- The slots that config_read visits. -/
def Visible (k : Config) (j : ℕ) : Prop :=
  j < configIndexSize ∧ ∀ i ≤ j, (k.configIndex i).sectionAt ≠ none

def sectionString (k : Config) (j : ℕ) : Option (List Byte) :=
  (k.configIndex j).sectionAt.bind (string k.text)

def propertyString (k : Config) (j : ℕ) : Option (List Byte) :=
  (k.configIndex j).propertyAt.bind (string k.text)

def valueString (k : Config) (j : ℕ) : Option (List Byte) :=
  (k.configIndex j).valueAt.bind (string k.text)

/-- Every visible slot has three strings inside the text. -/
def WellFormed (k : Config) : Prop :=
  ∀ j, k.Visible j → (k.sectionString j).isSome ∧ (k.propertyString j).isSome ∧
    (k.valueString j).isSome

/-- The slot is for the request. -/
def Exact (k : Config) (s p : List Byte) (j : ℕ) : Prop :=
  k.sectionString j = some s ∧ k.propertyString j = some p

/-- The slot answers the request. -/
def Alike (k : Config) (s p : List Byte) (j : ℕ) : Prop :=
  ∃ a b, k.sectionString j = some a ∧ k.propertyString j = some b ∧ Comparable a s ∧ Comparable b p

/-- The first visible slot with the property. -/
def First (k : Config) (P : ℕ → Prop) (j : ℕ) : Prop := k.Visible j ∧ P j ∧ ∀ i < j, ¬ P i

/-- What config_read should answer. -/
def LookupExact (k : Config) (s p : List Byte) (r : Option ℕ) : Prop :=
  (∃ j, k.First (k.Exact s p) j ∧ r = (k.configIndex j).valueAt) ∨
    (∀ j, k.Visible j → ¬ k.Exact s p j) ∧ r = none

theorem Exact.alike {j : ℕ} (h : k.Exact s p j) : k.Alike s p j :=
  ⟨s, p, h.1, h.2, Or.inl List.prefix_rfl, Or.inl List.prefix_rfl⟩

theorem First.unique {P : ℕ → Prop} {i j : ℕ} (hi : k.First P i) (hj : k.First P j) : i = j := by
  rcases Nat.lt_trichotomy i j with h | h | h
  · exact absurd hi.2.1 (hj.2.2 i h)
  · exact h
  · exact absurd hj.2.1 (hi.2.2 j h)

theorem Visible.mono {i j : ℕ} (h : k.Visible j) (hij : i ≤ j) : k.Visible i :=
  ⟨lt_of_le_of_lt hij h.1, fun l hl => h.2 l (hl.trans hij)⟩

end Config

open Config

theorem strcmp_eq {a : Option ℕ} {w : List Byte} (h : a.bind (string k.text) = some w)
    {b : List Byte} (hb : nul ∉ b) : k.strcmp a b = some (decide (¬ Comparable w b)) := by
  obtain ⟨i, rfl, hi⟩ := Option.bind_eq_some_iff.mp h
  exact strcmpFrom_eq hi hb

/-- The loop from slot `i` on, when no earlier slot has answered. -/
theorem configReadFrom_spec (hw : k.WellFormed) (hs : nul ∉ s) (hp : nul ∉ p) {n i : ℕ}
    (hn : i + n = configIndexSize) (hvis : ∀ j < i, k.Visible j) (hno : ∀ j < i, ¬ k.Alike s p j) :
    ∃ r, configReadFrom k s p n i = some r ∧
      ((∃ j, k.First (k.Alike s p) j ∧ r = (k.configIndex j).valueAt) ∨
        (∀ j, k.Visible j → ¬ k.Alike s p j) ∧ r = none) := by
  induction n generalizing i with
  | zero =>
    refine ⟨none, rfl, Or.inr ⟨fun j hj => hno j ?_, rfl⟩⟩
    have hlt := hj.1
    omega
  | succ n ih =>
    unfold configReadFrom
    by_cases hsec : (k.configIndex i).sectionAt = none
    · rw [if_pos hsec]
      refine ⟨none, rfl, Or.inr ⟨fun j hj => hno j ?_, rfl⟩⟩
      by_contra hle
      exact hj.2 i (by omega) hsec
    · have hv : k.Visible i := by
        refine ⟨by omega, fun j hj => ?_⟩
        rcases Nat.lt_or_eq_of_le hj with hlt | rfl
        · exact (hvis j hlt).2 j le_rfl
        · exact hsec
      obtain ⟨h1, h2, -⟩ := hw i hv
      obtain ⟨a, ha⟩ := Option.isSome_iff_exists.mp h1
      obtain ⟨b, hb⟩ := Option.isSome_iff_exists.mp h2
      have hvis' : ∀ j < i + 1, k.Visible j := by
        intro j hj
        exact hv.mono (by omega)
      rw [if_neg hsec, strcmp_eq ha hs, strcmp_eq hb hp]
      by_cases hc : k.Alike s p i
      · obtain ⟨a', b', ha', hb', hca, hcb⟩ := hc
        obtain rfl : a = a' := Option.some.inj (ha.symm.trans ha')
        obtain rfl : b = b' := Option.some.inj (hb.symm.trans hb')
        refine ⟨(k.configIndex i).valueAt, ?_, Or.inl ⟨i, ⟨hv, ⟨a, b, ha, hb, hca, hcb⟩, hno⟩, rfl⟩⟩
        simp [hca, hcb]
      · have hno' : ∀ j < i + 1, ¬ k.Alike s p j := by
          intro j hj
          rcases Nat.lt_or_eq_of_le (Nat.le_of_lt_succ hj) with hlt | rfl
          · exact hno j hlt
          · exact hc
        obtain ⟨r, hr, hspec⟩ := ih (by omega) hvis' hno'
        refine ⟨r, ?_, hspec⟩
        rw [← hr]
        by_cases hca : Comparable a s
        · have hcb : ¬ Comparable b p := fun hcb => hc ⟨a, b, ha, hb, hca, hcb⟩
          simp [hca, hcb]
        · simp [hca]

/-- config_read of a well-formed index answers, with the value of the first entry that agrees with
the request as far as the shorter strings go. -/
theorem configRead_spec (hw : k.WellFormed) (hs : nul ∉ s) (hp : nul ∉ p) :
    ∃ r, configRead k s p = some r ∧
      ((∃ j, k.First (k.Alike s p) j ∧ r = (k.configIndex j).valueAt) ∨
        (∀ j, k.Visible j → ¬ k.Alike s p j) ∧ r = none) :=
  configReadFrom_spec hw hs hp (Nat.zero_add _) (fun _ hj => absurd hj (Nat.not_lt_zero _))
    fun _ hj => absurd hj (Nat.not_lt_zero _)

/-- The lookup is exact if and only if the first entry that agrees with the request as far as the
shorter strings go is one for the request, or has the value of the first one for it. -/
theorem config_lookup_exact (k : Config) (s p : List Byte) (hw : k.WellFormed) (hs : nul ∉ s)
    (hp : nul ∉ p) : ∃ r, configRead k s p = some r ∧ (k.LookupExact s p r ↔
      ∀ j, k.First (k.Alike s p) j → k.Exact s p j ∨
        ∃ i, k.First (k.Exact s p) i ∧ (k.configIndex i).valueAt = (k.configIndex j).valueAt) := by
  obtain ⟨r, hr, hspec⟩ := configRead_spec hw hs hp
  refine ⟨r, hr, ?_⟩
  constructor
  · intro hlook j hj
    have hrj : r = (k.configIndex j).valueAt := by
      rcases hspec with ⟨j', hj', rfl⟩ | ⟨hnone, -⟩
      · rw [hj'.unique hj]
      · exact absurd hj.2.1 (hnone j hj.1)
    rcases hlook with ⟨i, hi, hri⟩ | ⟨-, hrn⟩
    · exact Or.inr ⟨i, hi, hri.symm.trans hrj⟩
    · obtain ⟨-, -, hval⟩ := hw j hj.1
      rw [valueString, ← hrj, hrn] at hval
      exact (Bool.false_ne_true hval).elim
  · intro hcond
    rcases hspec with ⟨j, hj, rfl⟩ | ⟨hnone, rfl⟩
    · rcases hcond j hj with hex | ⟨i, hi, hval⟩
      · exact Or.inl ⟨j, ⟨hj.1, hex, fun i hi he => hj.2.2 i hi he.alike⟩, rfl⟩
      · exact Or.inl ⟨i, hi, hval.symm⟩
    · exact Or.inr ⟨fun j hj he => hnone j hj he.alike, rfl⟩

def bytes (s : String) : List Byte := s.toList.map fun c => BitVec.ofNat 8 c.toNat

/-- The lines `load image 1F` and `loader image 2000`, as config_parse leaves them. -/
def twoLoaders : Config where
  text := bytes "load" ++ nul :: (bytes "image" ++ nul :: (bytes "1F" ++ nul :: (bytes "loader" ++
    nul :: (bytes "image" ++ nul :: (bytes "2000" ++ nul :: [nul])))))
  configIndex
    | 0 => ⟨some 0, some 5, some 11⟩
    | 1 => ⟨some 14, some 21, some 27⟩
    | _ => ⟨none, none, none⟩

theorem twoLoaders_wellFormed : twoLoaders.WellFormed := by
  rintro (_ | _ | j) hj
  · decide +kernel
  · decide +kernel
  · exact absurd rfl (hj.2 (j + 2) le_rfl)

theorem config_lookup_exact_load : ∃ r, configRead twoLoaders (bytes "load") (bytes "image") = some r ∧
    twoLoaders.LookupExact (bytes "load") (bytes "image") r := by
  obtain ⟨r, hr, hiff⟩ := config_lookup_exact twoLoaders (bytes "load") (bytes "image")
    twoLoaders_wellFormed (by decide) (by decide)
  refine ⟨r, hr, hiff.mpr fun j hj => Or.inl ?_⟩
  have hexact : twoLoaders.Exact (bytes "load") (bytes "image") 0 := by
    constructor <;> decide +kernel
  have hfirst : twoLoaders.First (twoLoaders.Alike (bytes "load") (bytes "image")) 0 :=
    ⟨hj.1.mono (Nat.zero_le j), hexact.alike, fun i hi => absurd hi (Nat.not_lt_zero i)⟩
  rw [hj.unique hfirst]
  exact hexact

/-- The entry of the section `load` answers a request for the section `loader`. -/
theorem config_lookup_shadowed : ¬ ∀ (k : Config) (s p : List Byte), k.WellFormed → nul ∉ s →
    nul ∉ p → ∃ r, configRead k s p = some r ∧ k.LookupExact s p r := by
  intro h
  obtain ⟨r, hr, hlook⟩ := h twoLoaders (bytes "loader") (bytes "image") twoLoaders_wellFormed
    (by decide) (by decide)
  have hread : configRead twoLoaders (bytes "loader") (bytes "image") = some (some 11) := by
    decide +kernel
  obtain rfl : r = some 11 := Option.some.inj (hr.symm.trans hread)
  rcases hlook with ⟨j, hj, hval⟩ | ⟨-, hnone⟩
  · rcases j with _ | _ | j
    · exact absurd hj.2.1.1 (by decide +kernel)
    · exact absurd hval (by decide)
    · cases hval
  · cases hnone

end Lookup

section Number

/-- The value of a hexadecimal digit of either case. -/
def hexDigit (c : Byte) : Option ℕ :=
  if 0x30 ≤ c.toNat ∧ c.toNat ≤ 0x39 then some (c.toNat - 0x30)
  else if 0x61 ≤ c.toNat ∧ c.toNat ≤ 0x66 then some (c.toNat - 0x61 + 10)
  else if 0x41 ≤ c.toNat ∧ c.toNat ≤ 0x46 then some (c.toNat - 0x41 + 10)
  else none

/-- The number that the digits continue. -/
def hexNumberFrom : ℕ → List Byte → Option ℕ
  | n, [] => some n
  | n, c :: cs => (hexDigit c).bind fun d => hexNumberFrom (16 * n + d) cs

def hexNumber (v : List Byte) : Option ℕ := hexNumberFrom 0 v

/-- What a value string stands for. -/
def ptrOf (v : List Byte) (sentinel : BitVec 64) : BitVec 64 :=
  if v = [] then sentinel
  else match hexNumber v with
    | none => sentinel
    | some n => if n < 2 ^ 64 then BitVec.ofNat 64 n else sentinel

theorem hexDigit_lt {c : Byte} {d : ℕ} (h : hexDigit c = some d) : d < 16 := by
  unfold hexDigit at h
  split_ifs at h <;> cases h <;> omega

/-- One turn of the loop shifts a digit in. -/
theorem shift_digit (n d : ℕ) (hd : d < 16) :
    (BitVec.ofNat 64 n <<< 4) ||| BitVec.ofNat 64 d = BitVec.ofNat 64 (16 * n + d) := by
  apply BitVec.eq_of_toNat_eq
  rw [BitVec.toNat_or, BitVec.toNat_shiftLeft, BitVec.toNat_ofNat, BitVec.toNat_ofNat,
    BitVec.toNat_ofNat]
  have hshift : (n % 2 ^ 64) <<< 4 % 2 ^ 64 = (n % 2 ^ 60) <<< 4 := by
    rw [Nat.shiftLeft_eq, Nat.shiftLeft_eq]
    omega
  rw [hshift, Nat.mod_eq_of_lt (show d < 2 ^ 64 by omega),
    ← Nat.shiftLeft_add_eq_or_of_lt (show d < 2 ^ 4 by omega), Nat.shiftLeft_eq]
  omega

/-- The digit that the loop shifts in. -/
def readDigit (c : Byte) : Option (BitVec 64) :=
  if 0x30 ≤ c ∧ c ≤ 0x39 then some ((c - 0x30).setWidth 64)
  else if 0x61 ≤ c ∧ c ≤ 0x66 then some ((c - 0x61 + 10).setWidth 64)
  else if 0x41 ≤ c ∧ c ≤ 0x46 then some ((c - 0x41 + 10).setWidth 64)
  else none

theorem readDigit_eq (c : Byte) : readDigit c = (hexDigit c).map (BitVec.ofNat 64) := by
  revert c
  decide +kernel

theorem readPtrFrom_cons (sentinel : BitVec 64) {c : Byte} (hc : c ≠ nul) (cs : List Byte) (n : ℕ) :
    readPtrFrom sentinel (c :: cs) (BitVec.ofNat 64 n) = (hexDigit c).elim (some sentinel)
      fun d => readPtrFrom sentinel cs (BitVec.ofNat 64 (16 * n + d)) := by
  have hloop : readPtrFrom sentinel (c :: cs) (BitVec.ofNat 64 n) =
      (readDigit c).elim (some sentinel)
        fun d => readPtrFrom sentinel cs ((BitVec.ofNat 64 n <<< 4) ||| d) := by
    rw [readPtrFrom, if_neg hc]
    unfold readDigit
    split_ifs <;> rfl
  rw [hloop, readDigit_eq]
  cases hd : hexDigit c with
  | none => rfl
  | some d =>
    dsimp only [Option.map_some, Option.elim_some]
    rw [shift_digit n d (hexDigit_lt hd)]

/-- The loop over a string computes its number modulo 2^64. -/
theorem readPtrFrom_string (sentinel : BitVec 64) {v : List Byte} (hv : nul ∉ v) (rest : List Byte)
    (n : ℕ) : readPtrFrom sentinel (v ++ nul :: rest) (BitVec.ofNat 64 n) =
      some ((hexNumberFrom n v).elim sentinel (BitVec.ofNat 64)) := by
  induction v generalizing n with
  | nil => exact if_pos rfl
  | cons c cs ih =>
    rw [List.mem_cons, not_or] at hv
    rw [List.cons_append, readPtrFrom_cons sentinel (Ne.symm hv.1), hexNumberFrom]
    cases hexDigit c with
    | none => rfl
    | some d => exact ih hv.2 _

variable {k : Config} {s p : List Byte} {sentinel : BitVec 64}

/-- config_read_as_ptr on a value string. -/
theorem configReadAsPtr_eq {value : ℕ} {v : List Byte} (hr : configRead k s p = some (some value))
    (hv : Config.string k.text value = some v) : configReadAsPtr k s p sentinel =
      some ((hexNumber v).elim sentinel (BitVec.ofNat 64)) := by
  obtain ⟨hnul, rest, hl⟩ := stringFrom_eq_some hv
  unfold configReadAsPtr
  rw [hr]
  change readPtrFrom sentinel (k.text.drop value) (BitVec.ofNat 64 0) = _
  rw [hl]
  exact readPtrFrom_string sentinel hnul rest 0

/-- A value string is decoded exactly, unless it is empty or a numeral that does not fit into 64
bits, and the sentinel is not by chance what the code returns for it. -/
theorem config_read_as_ptr_exact (k : Config) (s p : List Byte) (sentinel : BitVec 64) (value : ℕ)
    (v : List Byte) (hr : configRead k s p = some (some value))
    (hv : Config.string k.text value = some v) :
    configReadAsPtr k s p sentinel = some (ptrOf v sentinel) ↔
      (v = [] → sentinel = 0) ∧
      ∀ n, hexNumber v = some n → 2 ^ 64 ≤ n → sentinel = BitVec.ofNat 64 n := by
  rw [configReadAsPtr_eq hr hv, Option.some.injEq]
  by_cases hnil : v = []
  · subst hnil
    have hz : hexNumber [] = some 0 := rfl
    rw [hz, ptrOf, if_pos rfl]
    constructor
    · intro h
      refine ⟨fun _ => h.symm, fun n hn hle => ?_⟩
      obtain rfl := Option.some.inj hn
      exact absurd hle (by decide)
    · intro h
      exact (h.1 rfl).symm
  · rw [ptrOf, if_neg hnil]
    cases hn : hexNumber v with
    | none =>
      refine iff_of_true rfl ⟨fun h => absurd h hnil, fun n h => ?_⟩
      cases h
    | some n =>
      dsimp only [Option.elim_some]
      by_cases hlt : n < 2 ^ 64
      · rw [if_pos hlt]
        refine iff_of_true rfl ⟨fun h => absurd h hnil, fun m hm hle => ?_⟩
        obtain rfl := Option.some.inj hm
        exact absurd hlt (Nat.not_lt.mpr hle)
      · rw [if_neg hlt]
        constructor
        · intro h
          refine ⟨fun h => absurd h hnil, fun m hm _ => ?_⟩
          obtain rfl := Option.some.inj hm
          exact h.symm
        · intro h
          exact (h.2 n rfl (Nat.not_lt.mp hlt)).symm

theorem config_read_as_ptr_exact_1F :
    configReadAsPtr twoLoaders (bytes "load") (bytes "image") 7 = some 0x1F :=
  ((config_read_as_ptr_exact twoLoaders (bytes "load") (bytes "image") 7 11 (bytes "1F")
    (by decide +kernel) (by decide +kernel)).mpr
      ⟨fun h => absurd h (by decide), fun n hn hle => by
        have hn' : hexNumber (bytes "1F") = some 0x1F := by decide +kernel
        obtain rfl := Option.some.inj (hn'.symm.trans hn)
        exact absurd hle (by decide)⟩).trans (by decide +kernel)

/-- A value of seventeen digits loses the first one. -/
def longValue : Config where
  text := bytes "loader" ++ nul :: (bytes "base" ++ nul :: (bytes "10000000000000001" ++ nul :: [nul]))
  configIndex
    | 0 => ⟨some 0, some 7, some 12⟩
    | _ => ⟨none, none, none⟩

theorem config_read_as_ptr_truncates : ¬ ∀ (k : Config) (s p : List Byte) (sentinel : BitVec 64)
    (value : ℕ) (v : List Byte), configRead k s p = some (some value) →
    Config.string k.text value = some v →
    configReadAsPtr k s p sentinel = some (ptrOf v sentinel) := by
  intro h
  have hone := h longValue (bytes "loader") (bytes "base") 0xFFFFFFFF00000000 12
    (bytes "10000000000000001") (by decide +kernel) (by decide +kernel)
  exact absurd hone (by decide +kernel)

end Number
end Pinion64
