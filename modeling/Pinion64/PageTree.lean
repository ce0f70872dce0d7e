import Pinion64.Page
import Mathlib.Tactic.IntervalCases

/-! The tree that the page tables form: what a lookup sees, and what building and editing the
tree does to every lookup. -/
namespace Pinion64
open Radix

/-- How the walks of page.c read an entry of a table with `h` levels below it. -/
def entryView (h : ℕ) (e : Word) : Slot Ptr :=
  if e &&& pfPres = 0 then .empty
  else if e &&& pfLarge ≠ 0 ∨ h = 0 then .leaf
  else .table (frameOf e + base)

/-- The table indices of an address, from the level with `n-1` levels below it down. -/
def pathFrom (addr : Word) : ℕ → List (BitVec 9)
  | 0 => []
  | n+1 => tableIndex addr n :: pathFrom addr n

@[simp] theorem pathFrom_length (addr : Word) (n : ℕ) : (pathFrom addr n).length = n := by
  induction n with
  | zero => rfl
  | succ n ih => simp [pathFrom, ih]

/-- The entry that maps an address, with the number of levels below it. -/
def Paging.lookup (p : Paging) (addr : Word) : Option (ℕ × Word) :=
  find entryView p.mem (pathFrom addr 4) p.pcxRoot

def transOf (addr : Word) : Option (ℕ × Word) → Word
  | none => -1
  | some (h, e) => frameOf e + (addr &&& offsetMask h)

def flagsOf : Option (ℕ × Word) → Word
  | none => 0
  | some (_, e) => e &&& pfBits

theorem pcxGetTransFrom_eq (p : Paging) (addr : Word) (n : ℕ) (pt : Ptr) :
    pcxGetTransFrom p addr n pt = transOf addr (find entryView p.mem (pathFrom addr n) pt) := by
  induction n generalizing pt with
  | zero => rfl
  | succ n ih =>
    simp only [pcxGetTransFrom, pathFrom, find, pathFrom_length, entryView]
    split_ifs with h1 h2
    · rfl
    · rfl
    · exact ih _

theorem pcxGetFlagsFrom_eq (p : Paging) (addr : Word) (n : ℕ) (pt : Ptr) :
    pcxGetFlagsFrom p addr n pt = flagsOf (find entryView p.mem (pathFrom addr n) pt) := by
  induction n generalizing pt with
  | zero => rfl
  | succ n ih =>
    simp only [pcxGetFlagsFrom, pathFrom, find, pathFrom_length, entryView]
    split_ifs with h1 h2
    · rfl
    · rfl
    · exact ih _

theorem pcxGetTrans_eq (p : Paging) (addr : Word) :
    pcxGetTrans p 0 addr = transOf addr (p.lookup addr) := pcxGetTransFrom_eq p addr 4 _

theorem pcxGetFlags_eq (p : Paging) (addr : Word) :
    pcxGetFlags p 0 addr = flagsOf (p.lookup addr) := pcxGetFlagsFrom_eq p addr 4 _

/-- Two addresses share their path exactly when they lie on the same page, up to the sixteen
bits that the walk ignores. -/
theorem pathFrom_eq_iff (a b : Word) :
    pathFrom a 4 = pathFrom b 4 ↔ a.extractLsb' 12 36 = b.extractLsb' 12 36 := by
  simp only [pathFrom, List.cons.injEq, and_true, tableIndex]
  constructor
  · rintro ⟨h3, h2, h1, h0⟩
    apply BitVec.eq_of_getLsbD_eq
    intro i hi
    have g : ∀ k, a.extractLsb' (12+9*k) 9 = b.extractLsb' (12+9*k) 9 → ∀ j < 9,
        a.getLsbD (12+9*k+j) = b.getLsbD (12+9*k+j) := by
      intro k hk j hj
      have h := congrArg (fun x : BitVec 9 => x.getLsbD j) hk
      simpa [hj] using h
    simp only [BitVec.getLsbD_extractLsb', hi, decide_true, Bool.true_and]
    have hq : i / 9 < 4 := by omega
    have he : 12 + i = 12 + 9 * (i/9) + i % 9 := by omega
    rw [he]
    apply g _ _ _ (Nat.mod_lt _ (by decide))
    interval_cases i / 9 <;> assumption
  · intro h
    have g : ∀ i < 36, a.getLsbD (12+i) = b.getLsbD (12+i) := by
      intro i hi
      have hh := congrArg (fun x : BitVec 36 => x.getLsbD i) h
      simpa [hi] using hh
    have t : ∀ k < 4, a.extractLsb' (12+9*k) 9 = b.extractLsb' (12+9*k) 9 := by
      intro k hk
      apply BitVec.eq_of_getLsbD_eq
      intro i hi
      simp only [BitVec.getLsbD_extractLsb', hi, decide_true, Bool.true_and]
      have hh := g (9*k+i) (by omega)
      rwa [← Nat.add_assoc] at hh
    exact ⟨t 3 (by decide), t 2 (by decide), t 1 (by decide), t 0 (by decide)⟩

section Entries

theorem pfBits_getLsbD (i : ℕ) : pfBits.getLsbD i = (decide (i < 12) || decide (i = 63)) := by
  by_cases hi : i < 64
  · have h : ∀ j : Fin 64, pfBits.getLsbD j.val =
        (decide (j.val < 12) || decide (j.val = 63)) := by decide
    exact h ⟨i, hi⟩
  · rw [BitVec.getLsbD_of_ge _ _ (by omega)]
    simp
    omega

theorem and_pfBits_eq_zero {x : Word} (ha : x.toNat % 4096 = 0) (hx : x.toNat < 2 ^ 63) :
    x &&& pfBits = 0 := by
  apply BitVec.eq_of_getLsbD_eq
  intro i hi
  simp only [BitVec.getLsbD_and, pfBits_getLsbD]
  by_cases h : i < 12
  · have hm : (x.toNat % 2 ^ 12).testBit i = (decide (i < 12) && x.toNat.testBit i) :=
      Nat.testBit_mod_two_pow x.toNat 12 i
    rw [show x.toNat % 2 ^ 12 = 0 from ha] at hm
    simp [h] at hm
    simp [BitVec.getLsbD, ← hm]
  · by_cases h' : i = 63
    · subst h'
      have := Nat.testBit_lt_two_pow hx
      simp [BitVec.getLsbD, this]
    · simp [h, h']

/-- Flags outside the frame bits leave the frame of an entry alone. -/
theorem frameOf_or {x f : Word} (hx : x &&& pfBits = 0) (hf : f &&& ~~~pfBits = 0) :
    frameOf (x ||| f) = x := by
  have hn : x &&& ~~~pfBits = x := by
    have hs : x &&& (pfBits ||| ~~~pfBits) = x := by
      rw [show pfBits ||| ~~~pfBits = BitVec.allOnes 64 by decide, BitVec.and_allOnes]
    rw [BitVec.and_or_distrib_left, hx] at hs
    simpa using hs
  rw [frameOf, BitVec.and_comm, BitVec.and_or_distrib_left, BitVec.and_comm _ f, hf,
    BitVec.and_comm _ x, hn]
  simp

/-- An entry built for a fresh table names that table. -/
theorem entryView_table {q : Ptr} {f : Word} {h : ℕ} (hq : q.toNat % 4096 = 0)
    (hb : base.toNat ≤ q.toNat) (hf : f &&& ~~~pfBits = 0) (hp : f &&& pfPres ≠ 0)
    (hl : f &&& pfLarge = 0) (hh : h ≠ 0) :
    entryView h ((q - base) ||| f) = .table q := by
  have hs : (q - base).toNat = q.toNat - base.toNat := BitVec.toNat_sub_of_le hb
  have hz : (q - base) &&& pfBits = 0 := by
    apply and_pfBits_eq_zero
    · rw [hs]
      simp only [base, BitVec.reduceToNat] at hb ⊢
      omega
    · rw [hs]
      have := q.isLt
      simp only [base, BitVec.reduceToNat] at hb ⊢
      omega
  have hbit : ∀ m, m &&& pfBits = m → ((q - base) ||| f) &&& m = f &&& m := by
    intro m hm
    rw [← hm, BitVec.and_comm m, ← BitVec.and_assoc, ← BitVec.and_assoc, BitVec.and_comm _ m,
      BitVec.and_comm _ m]
    congr 1
    rw [BitVec.and_comm, BitVec.and_or_distrib_left, BitVec.and_comm _ (q - base), hz,
      BitVec.and_comm pfBits]
    simp
  unfold entryView
  rw [hbit pfPres (by decide), hbit pfLarge (by decide), frameOf_or hz hf, if_neg hp,
    if_neg (by simp [hl, hh]), BitVec.sub_add_cancel]

end Entries

/-- The pages delivered so far lie in the first half gigabyte, none is NULL. -/
def PageSource.Delivers (S : PageSource) (n : ℕ) : Prop :=
  ∀ k < n, S.page k ≠ 0 ∧ (S.page k).toNat < base.toNat + 2 ^ 29

/-- The addresses of the pinion window, up to the sixteen bits that the walk ignores. -/
def InWindow (addr : Word) : Prop := tableIndex addr 3 = 511 ∧ tableIndex addr 2 = 511

instance (addr : Word) : Decidable (InWindow addr) := by unfold InWindow; infer_instance

/-- The page tables form a tree of pages taken from the allocator, in which the only large
entries are those of the table that maps the pinion window. -/
structure TreeInv (S : PageSource) (p : Paging) (own : Ptr → Option (List (BitVec 9))) :
    Prop where
  forest : Forest entryView 4 p.mem p.pcxRoot own
  taken : ∀ q w, own q = some w → ∃ k < p.pmmTaken, S.page k = q
  window : ∃ q, own q = some [511, 511] ∧ p.mem q = pinionPt2
  large : ∀ q w i, own q = some w → w.length < 3 → p.mem q i &&& pfPres ≠ 0 →
    p.mem q i &&& pfLarge ≠ 0 → w = [511, 511]

theorem pinionPt2_view (h : ℕ) (i : BitVec 9) : entryView h (pinionPt2 i) = .leaf := by
  have hp : pinionPt2 i &&& pfPres ≠ 0 ∧ pinionPt2 i &&& pfLarge ≠ 0 := by
    revert i
    decide
  rw [entryView, if_neg hp.1, if_pos (Or.inl hp.2)]

end Pinion64
