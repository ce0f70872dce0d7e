import Pinion64.ModuleBounds
import Mathlib.Data.List.DropRight
import Mathlib.Data.List.GetD

/-! The command strings of the modules, and what the three scanning loops of init_multiboot find and
read in them. -/
namespace Pinion64
open Bytes

namespace Unfold

section Strings

variable (m : Memory 32)

/-- The `n` characters from an address on. -/
def chars : Addr → ℕ → List (BitVec 8)
  | _, 0 => []
  | a, n+1 => m a :: chars (a + 1) n

/-- The string at an address, without the character that terminates it. -/
structure IsString (a : Addr) (l : List (BitVec 8)) : Prop where
  chars : chars m a l.length = l
  nonzero : 0 ∉ l
  terminated : m (a + BitVec.ofNat 32 l.length) = 0

/-- What stands behind the last '/' of a string, which is all of it if there is none. -/
def lastComponent (l : List (BitVec 8)) : List (BitVec 8) := l.rtakeWhile fun c => c ≠ 0x2F

variable {m} {m' : Memory 32} {a : Addr} {c : BitVec 8} {l l' : List (BitVec 8)} {k n : ℕ}

theorem getD_chars (hk : k < n) : (chars m a n).getD k 0 = m (a + BitVec.ofNat 32 k) := by
  induction n generalizing a k with
  | zero => exact absurd hk (Nat.not_lt_zero k)
  | succ n ih =>
    cases k with
    | zero =>
      rw [chars, List.getD_cons_zero]
      exact congrArg m (BitVec.add_zero a).symm
    | succ k => rw [chars, List.getD_cons_succ, ih (by omega), next_add]

theorem chars_congr (h : ∀ k < n, m' (a + BitVec.ofNat 32 k) = m (a + BitVec.ofNat 32 k)) :
    chars m' a n = chars m a n := by
  induction n generalizing a with
  | zero => rfl
  | succ n ih =>
    have h0 := h 0 (Nat.succ_pos n)
    rw [BitVec.add_zero] at h0
    have hrest : chars m' (a + 1) n = chars m (a + 1) n := by
      apply ih
      intro k hk
      rw [next_add]
      exact h (k + 1) (by omega)
    rw [chars, chars, h0, hrest]

namespace IsString

/-- The characters of the string and the one behind them. -/
theorem read (h : IsString m a l) (hk : k ≤ l.length) :
    m (a + BitVec.ofNat 32 k) = l.getD k 0 := by
  by_cases hlt : k < l.length
  · conv_rhs => rw [← h.chars]
    exact (getD_chars hlt).symm
  · obtain rfl : k = l.length := by omega
    rw [h.terminated, List.getD_eq_default _ _ le_rfl]

theorem getD_ne_zero (h : IsString m a l) (hk : k < l.length) : l.getD k 0 ≠ 0 := by
  rw [List.getD_eq_getElem _ _ hk]
  intro hc
  exact h.nonzero (hc ▸ List.getElem_mem hk)

theorem congr (h : IsString m a l)
    (heq : ∀ k ≤ l.length, m' (a + BitVec.ofNat 32 k) = m (a + BitVec.ofNat 32 k)) :
    IsString m' a l where
  chars := (chars_congr fun k hk => heq k (Nat.le_of_lt hk)).trans h.chars
  nonzero := h.nonzero
  terminated := (heq l.length le_rfl).trans h.terminated

/-- The string behind the first character. -/
theorem tail (h : IsString m a (c :: l)) : m a = c ∧ IsString m (a + 1) l := by
  have hc := h.chars
  rw [List.length_cons, Unfold.chars, List.cons.injEq] at hc
  refine ⟨hc.1, hc.2, fun hz => h.nonzero (List.mem_cons_of_mem c hz), ?_⟩
  rw [next_add]
  exact h.terminated

theorem drop (h : IsString m a l) (hk : k ≤ l.length) :
    IsString m (a + BitVec.ofNat 32 k) (l.drop k) := by
  induction k generalizing a l with
  | zero =>
    rw [BitVec.add_zero]
    exact h
  | succ k ih =>
    cases l with
    | nil => exact absurd hk (Nat.not_succ_le_zero k)
    | cons c l =>
      rw [← next_add]
      exact ih h.tail.2 (Nat.le_of_succ_le_succ hk)

/-- There is one string at an address. -/
theorem unique (h : IsString m a l) (h' : IsString m a l') : l = l' := by
  induction l generalizing a l' with
  | nil =>
    cases l' with
    | nil => rfl
    | cons c l' =>
      have hz : m a = 0 := by
        rw [← h.terminated]
        exact congrArg m (BitVec.add_zero a).symm
      exact absurd (h'.tail.1.symm.trans hz) fun hc => h'.nonzero (hc ▸ List.mem_cons_self)
  | cons c l ih =>
    cases l' with
    | nil =>
      have hz : m a = 0 := by
        rw [← h'.terminated]
        exact congrArg m (BitVec.add_zero a).symm
      exact absurd (h.tail.1.symm.trans hz) fun hc => h.nonzero (hc ▸ List.mem_cons_self)
    | cons c' l' => rw [h.tail.1.symm.trans h'.tail.1, ih h.tail.2 h'.tail.2]

end IsString

theorem lastComponent_append (h : (0x2F : BitVec 8) ∉ l') : lastComponent (l ++ 0x2F :: l') = l' := by
  unfold lastComponent
  induction l' using List.reverseRecOn with
  | nil =>
    rw [List.rtakeWhile_concat_neg]
    simp
  | append_singleton l' c ih =>
    rw [List.mem_append, not_or, List.mem_singleton] at h
    rw [← List.cons_append, ← List.append_assoc, List.rtakeWhile_concat_pos, ih h.1]
    simpa using Ne.symm h.2

/-- The last '/' of a string. -/
theorem exists_lastComponent (h : (0x2F : BitVec 8) ∈ l) :
    ∃ l₁ l₂, l = l₁ ++ 0x2F :: l₂ ∧ (0x2F : BitVec 8) ∉ l₂ := by
  induction l using List.reverseRecOn with
  | nil => exact absurd h List.not_mem_nil
  | append_singleton l c ih =>
    by_cases hc : c = 0x2F
    · exact ⟨l, [], by rw [hc], List.not_mem_nil⟩
    · rw [List.mem_append, List.mem_singleton] at h
      obtain ⟨l₁, l₂, hl, hn⟩ := ih (h.resolve_right fun he => hc he.symm)
      refine ⟨l₁, l₂ ++ [c], by rw [hl, List.append_assoc, List.cons_append], ?_⟩
      rw [List.mem_append, List.mem_singleton, not_or]
      exact ⟨hn, fun he => hc he.symm⟩

end Strings

section Scans

variable {string j : BitVec 32} {l : List (BitVec 8)} {k n fuel : ℕ} {s t : Machine}

/-- The loop has read characters of the string only, none of them behind the index `n`. -/
structure Scanned (string : Addr) (n : ℕ) (s t : Machine) : Prop where
  same : t = { s with reads := t.reads }
  read : ∀ r ∈ t.reads, r ∈ s.reads ∨ r.string = string ∧ r.index.toNat ≤ n

theorem Scanned.mem (h : Scanned string n s t) : t.mem = s.mem := by rw [h.same]

theorem Scanned.objectList (h : Scanned string n s t) : t.objectList = s.objectList := by
  rw [h.same]

theorem Scanned.refl : Scanned string n s s := ⟨rfl, fun _ hr => Or.inl hr⟩

theorem Scanned.trans {t' : Machine} (h : Scanned string n s t) (h' : Scanned string n t t') :
    Scanned string n s t' where
  same := by
    rw [h'.same, h.same]
  read r hr := (h'.read r hr).elim (h.read r) Or.inr

theorem scanned_sawChar (hj : j.toNat ≤ n) : Scanned string n s (s.sawChar string j) where
  same := rfl
  read r hr := by
    rcases List.mem_cons.mp hr with rfl | hr
    · exact Or.inr ⟨rfl, hj⟩
    · exact Or.inl hr

theorem toNat_index (hk : k ≤ n) (hn : n < 2 ^ 32) : (BitVec.ofNat 32 k).toNat = k := by
  rw [BitVec.toNat_ofNat, Nat.mod_eq_of_lt (by omega)]

theorem index_succ : BitVec.ofNat 32 k + 1 = BitVec.ofNat 32 (k + 1) := (BitVec.ofNat_add ..).symm

theorem findEnd_string (h : IsString s.mem string l) (hl : l.length < 2 ^ 32) (hn : k + n = l.length) :
    ∃ t, Scanned string l.length s t ∧ ∀ fuel, n < fuel →
      findEnd string fuel (BitVec.ofNat 32 k) s = some (BitVec.ofNat 32 l.length, t) := by
  induction n generalizing k s with
  | zero =>
    obtain rfl : k = l.length := by omega
    refine ⟨_, scanned_sawChar (toNat_index le_rfl hl).le, fun fuel hf => ?_⟩
    obtain ⟨fuel, rfl⟩ : ∃ k, fuel = k + 1 := ⟨fuel - 1, by omega⟩
    rw [findEnd, if_neg (not_not.mpr h.terminated)]
  | succ n ih =>
    have hne : s.mem (string + BitVec.ofNat 32 k) ≠ 0 := by
      rw [h.read (by omega)]
      exact h.getD_ne_zero (by omega)
    obtain ⟨t, ht, hrun⟩ := ih (s := s.sawChar string (BitVec.ofNat 32 k)) h (k := k + 1) (by omega)
    refine ⟨t, (scanned_sawChar ?_).trans ht, fun fuel hf => ?_⟩
    · rw [toNat_index (n := l.length) (by omega) hl]
      omega
    · obtain ⟨fuel, rfl⟩ : ∃ k, fuel = k + 1 := ⟨fuel - 1, by omega⟩
      rw [findEnd, if_pos hne, index_succ, hrun fuel (by omega)]

theorem toInt_index (hk : k < 2 ^ 31) : (BitVec.ofNat 32 k).toInt = k := by
  rw [BitVec.toInt_eq_toNat_bmod, toNat_index le_rfl (by omega)]
  exact Int.bmod_eq_of_le (by omega) (by omega)

/-- The scan stops at the last '/'. -/
theorem findSlash_string {l' : List (BitVec 8)} (h : IsString s.mem string (l ++ 0x2F :: l'))
    (hl : (l ++ 0x2F :: l').length < 2 ^ 31) (hslash : (0x2F : BitVec 8) ∉ l')
    (hn : n ≤ l'.length + 1) : ∃ t, Scanned string (l ++ 0x2F :: l').length s t ∧ ∀ fuel, n < fuel →
      findSlash string fuel (BitVec.ofNat 32 (l.length + n)) s =
        some (BitVec.ofNat 32 l.length, t) := by
  have hlen : (l ++ 0x2F :: l').length = l.length + (l'.length + 1) := by simp
  have hbound : ∀ n ≤ l'.length + 1,
      (BitVec.ofNat 32 (l.length + n)).toNat ≤ (l ++ 0x2F :: l').length := by
    intro n hn
    rw [toNat_index (n := 2 ^ 31) (by omega) (by omega)]
    omega
  induction n generalizing s with
  | zero =>
    refine ⟨_, scanned_sawChar (hbound 0 hn), fun fuel hf => ?_⟩
    obtain ⟨fuel, rfl⟩ : ∃ k, fuel = k + 1 := ⟨fuel - 1, by omega⟩
    have hchar : s.mem (string + BitVec.ofNat 32 (l.length + 0)) = 0x2F := by
      rw [h.read (by omega), List.getD_append_right _ _ _ _ (Nat.le_add_right ..),
        Nat.add_zero, Nat.sub_self]
      rfl
    rw [findSlash, if_neg fun hc => hc.1 hchar]
    rfl
  | succ n ih =>
    have hne : s.mem (string + BitVec.ofNat 32 (l.length + (n + 1))) ≠ 0x2F := by
      rw [h.read (by omega), List.getD_append_right _ _ _ _ (Nat.le_add_right ..),
        Nat.add_sub_cancel_left, List.getD_cons_succ]
      by_cases hlt : n < l'.length
      · rw [List.getD_eq_getElem _ _ hlt]
        intro hc
        exact hslash (hc ▸ List.getElem_mem hlt)
      · rw [List.getD_eq_default _ _ (by omega)]
        decide
    have hnonneg : 0 ≤ (BitVec.ofNat 32 (l.length + (n + 1))).toInt := by
      rw [toInt_index (by omega)]
      omega
    have hprev : BitVec.ofNat 32 (l.length + (n + 1)) - 1 = BitVec.ofNat 32 (l.length + n) := by
      rw [← Nat.add_assoc, ← index_succ]
      ring
    obtain ⟨t, ht, hrun⟩ := ih (s := s.sawChar string _) h (by omega)
    refine ⟨t, (scanned_sawChar (hbound _ hn)).trans ht, fun fuel hf => ?_⟩
    obtain ⟨fuel, rfl⟩ : ∃ k, fuel = k + 1 := ⟨fuel - 1, by omega⟩
    rw [findSlash, if_pos ⟨hne, hnonneg⟩, hprev, hrun fuel (by omega)]

/-- Without a '/' the scan reads on in front of the string. -/
theorem findSlash_before {p : BitVec 32 × Machine} (h : IsString s.mem string l)
    (hslash : (0x2F : BitVec 8) ∉ l) (hl : l.length < 2 ^ 31) (hk : k ≤ l.length)
    (hp : findSlash string fuel (BitVec.ofNat 32 k) s = some p) : ⟨string, -1⟩ ∈ p.2.reads := by
  have hne : ∀ k ≤ l.length, ∀ s : Machine, IsString s.mem string l →
      s.mem (string + BitVec.ofNat 32 k) ≠ 0x2F ∧ 0 ≤ (BitVec.ofNat 32 k).toInt := by
    intro k hk s h
    refine ⟨?_, ?_⟩
    · rw [h.read hk]
      by_cases hlt : k < l.length
      · rw [List.getD_eq_getElem _ _ hlt]
        intro hc
        exact hslash (hc ▸ List.getElem_mem hlt)
      · rw [List.getD_eq_default _ _ (by omega)]
        decide
    · rw [toInt_index (by omega)]
      omega
  induction fuel generalizing k s with
  | zero => exact absurd hp (by simp [findSlash])
  | succ fuel ih =>
    rw [findSlash, if_pos (hne k hk s h)] at hp
    cases k with
    | zero =>
      cases fuel with
      | zero => exact absurd hp (by simp [findSlash])
      | succ fuel =>
        have hzero : BitVec.ofNat 32 0 - 1 = -1 := by decide
        rw [hzero, findSlash, if_neg fun hc => absurd hc.2 (by decide)] at hp
        rw [← Option.some.inj hp]
        exact List.mem_cons_self
    | succ k =>
      have hprev : BitVec.ofNat 32 (k + 1) - 1 = BitVec.ofNat 32 k := by
        rw [← index_succ]
        ring
      rw [hprev] at hp
      exact ih (s := s.sawChar string _) h (by omega) hp

/-- The loop counts the characters of "pinion64" that agree. -/
theorem matchPinion_string {cs : List (BitVec 8)} (hc : 0 ∉ cs)
    (h : IsString s.mem (string + j) l) :
    (matchPinion string cs j s).1 = cs.length ↔ cs <+: l := by
  induction cs generalizing j l s with
  | nil => simp [matchPinion]
  | cons c cs ih =>
    rw [matchPinion]
    cases l with
    | nil =>
      have hz : s.mem (string + j) = 0 := by
        rw [← h.terminated]
        exact congrArg s.mem (BitVec.add_zero (string + j)).symm
      rw [if_pos hz]
      simp
    | cons d l =>
      obtain ⟨hd, htail⟩ := h.tail
      have hnz : s.mem (string + j) ≠ 0 := by
        rw [hd]
        exact fun hz => h.nonzero (hz ▸ List.mem_cons_self)
      rw [if_neg hnz, hd, List.cons_prefix_cons]
      split_ifs with hne
      · simp [hne]
      · rw [BitVec.add_assoc] at htail
        have hrest := ih (s := s.sawChar string j) (fun hz => hc (List.mem_cons_of_mem c hz)) htail
        rw [List.length_cons, Nat.add_right_cancel_iff, hrest]
        exact (and_iff_right (not_not.mp hne)).symm

/-- It reads no character behind the end of the string. -/
theorem matchPinion_scanned {cs : List (BitVec 8)} (h : IsString s.mem (string + BitVec.ofNat 32 k) l)
    (hn : n < 2 ^ 32) (hk : k + l.length = n) :
    Scanned string n s (matchPinion string cs (BitVec.ofNat 32 k) s).2 := by
  have hj : (BitVec.ofNat 32 k).toNat ≤ n := by
    rw [toNat_index (n := n) (by omega) hn]
    omega
  induction cs generalizing k l s with
  | nil => exact Scanned.refl
  | cons c cs ih =>
    rw [matchPinion]
    cases l with
    | nil =>
      have hz : s.mem (string + BitVec.ofNat 32 k) = 0 := by
        rw [← h.terminated]
        exact congrArg s.mem (BitVec.add_zero _).symm
      rw [if_pos hz]
      exact scanned_sawChar hj
    | cons d l =>
      rw [List.length_cons] at hk
      split_ifs with hz hne
      · exact scanned_sawChar hj
      · exact scanned_sawChar hj
      · have htail := h.tail.2
        rw [BitVec.add_assoc, index_succ] at htail
        rw [index_succ]
        refine (scanned_sawChar hj).trans (ih htail (by omega) ?_)
        rw [toNat_index (n := n) (by omega) hn]
        omega

/-- The first character it reads. -/
theorem matchPinion_first {c : BitVec 8} {cs : List (BitVec 8)} :
    ⟨string, j⟩ ∈ (matchPinion string (c :: cs) j s).2.reads := by
  rw [matchPinion]
  split_ifs with hz hne
  · exact List.mem_cons_self
  · exact List.mem_cons_self
  · exact matchPinion_extends cs |>.reads.subset List.mem_cons_self

end Scans

end Unfold
end Pinion64
