import Pinion64.PageAtomic
import Pinion64.PageRights
import Pinion64.Window

/-! The address space that page.c is for: one map from pages to entries. Neither a sequence of calls
nor the processor can tell the page tables from it. -/
namespace Pinion64
open Radix

section Definitions

/-- For every page, the entry that maps it, with the number of levels that it covers. -/
abbrev AddressSpace := BitVec 36 → Option (ℕ × Word)

/-- The page of an address, without the sixteen bits that no walk looks at. -/
def pageOf (addr : Word) : BitVec 36 := addr.extractLsb' 12 36

/-- A page that belongs to a larger one, and cannot be given an entry of its own. -/
def IsLarge : Option (ℕ × Word) → Prop
  | some (_+1, _) => True
  | _ => False

instance : DecidablePred IsLarge
  | none => .isFalse not_false
  | some (0, _) => .isFalse not_false
  | some (_+1, _) => .isTrue trivial

namespace AddressSpace

/-- The last gigabyte maps physical memory by pages of two megabytes; nothing else is mapped. -/
def init : AddressSpace := fun n =>
  if 2 ^ 36 - 2 ^ 18 ≤ n.toNat then some (1, pinionPt2 (n.extractLsb' 9 9)) else none

def setFrame (m : AddressSpace) (addr size frame flags : Word) : ℕ × AddressSpace :=
  if size &&& 0xFFF ≠ 0 ∨ addr &&& 0xFFF ≠ 0 ∨ IsLarge (m (pageOf addr)) then (1, m)
  else (0, Function.update m (pageOf addr) (leafOf (frame ||| flags)))

/-- The first `n` pages from the offset `i` on, up to the first one that is refused. -/
def setPages (vbase pbase flags : Word) : ℕ → Word → AddressSpace → Bool × AddressSpace
  | 0, _, m => (true, m)
  | n+1, i, m =>
    let (r, m) := m.setFrame (vbase + i) 0x1000 (pbase + i) flags
    if r ≠ 0 then (false, m) else setPages vbase pbase flags n (i + 0x1000) m

end AddressSpace

/-- The calls that the kernel and its API make for the root context. -/
inductive PagingCall
  | setFrame (addr size frame flags : Word)
  | getTrans (addr : Word)
  | getFrame (addr : Word)
  | getFlags (addr : Word)
  | pageSet (vbase pbase flags size : Word)
  | pageGet (vaddr : Word)

inductive PagingAnswer
  | code (r : ℕ)
  | word (x : Word)
  | done (b : Bool)
  | content (c : PageContent)
  deriving DecidableEq

def pcxGetFrame (p : Paging) (pcx : Ptr) (addr : Word) : Word := pcxGetTrans p pcx (addr &&& -0x1000)

def Paging.call (S : PageSource) (p : Paging) : PagingCall → PagingAnswer × Paging
  | .setFrame addr size frame flags =>
    let (r, p) := pcxSetFrame S p 0 addr size frame flags
    (.code r, p)
  | .getTrans addr => (.word (pcxGetTrans p 0 addr), p)
  | .getFrame addr => (.word (pcxGetFrame p 0 addr), p)
  | .getFlags addr => (.word (pcxGetFlags p 0 addr), p)
  | .pageSet vbase pbase flags size =>
    let (b, p) := apilogicPageSet S p vbase pbase flags size
    (.done b, p)
  | .pageGet vaddr => (.content (apilogicPageGet p vaddr), p)

def AddressSpace.call (m : AddressSpace) : PagingCall → PagingAnswer × AddressSpace
  | .setFrame addr size frame flags =>
    let (r, m) := m.setFrame addr size frame flags
    (.code r, m)
  | .getTrans addr => (.word (transOf addr (m (pageOf addr))), m)
  | .getFrame addr =>
    (.word (transOf (addr &&& -0x1000) (m (pageOf addr))), m)
  | .getFlags addr => (.word (flagsOf (m (pageOf addr))), m)
  | .pageSet vbase pbase flags size =>
    let (b, m) := if (pbase ||| vbase ||| size) &&& 0xFFF ≠ 0 then (false, m)
      else m.setPages vbase pbase flags (size.toNat / 0x1000) 0
    (.done b, m)
  | .pageGet vaddr =>
    (.content ⟨transOf vaddr (m (pageOf vaddr)), cookedFlags (flagsOf (m (pageOf vaddr)))⟩, m)

/-- Where an access to an address goes. User code has no rights in the upper half. -/
def AddressSpace.mmu (m : AddressSpace) (addr : Word) : Option (Word × Rights) :=
  if Canonical addr then
    (m (pageOf addr)).bind (mmuLeaf addr ⟨decide (addr.toNat < 2 ^ 47), true⟩)
  else none

/-- The answers to a sequence of calls, and the state behind it. -/
def answers {σ : Type*} (call : σ → PagingCall → PagingAnswer × σ) :
    σ → List PagingCall → List PagingAnswer × σ
  | s, [] => ([], s)
  | s, c :: cs => ((call s c).1 :: (answers call (call s c).2 cs).1, (answers call (call s c).2 cs).2)

end Definitions

variable {S : PageSource} {p : Paging} {m : AddressSpace}

/-- The page tables hold the entries of the address space, whose large pages are the window. -/
structure Represents (S : PageSource) (p : Paging) (m : AddressSpace) : Prop where
  tree : ∃ own, TreeInv S p own ∧ Linked p own
  lookup : ∀ a, p.lookup a = m (pageOf a)
  large : ∀ a, IsLarge (m (pageOf a)) ↔ InWindow a

section Start

theorem pageOf_toNat (a : Word) : (pageOf a).toNat = a.toNat / 4096 % 2 ^ 36 := by
  rw [pageOf, BitVec.extractLsb'_toNat, Nat.shiftRight_eq_div_pow]

/-- Before the first call there is nothing outside the window. -/
theorem pcxInit_lookup (p0 : Paging) (hd : S.Delivers (p0.pmmTaken + 258)) {a : Word}
    (ha : ¬ InWindow a) : (pcxInit S p0).lookup a = none := by
  obtain ⟨own, h, hinit⟩ := pcxInit_built p0 fun k hk => (hd k hk).1
  generalize pcxInit S p0 = p at h hinit
  rw [Paging.lookup, pathFrom, find, pathFrom_length]
  by_cases hp : p.mem p.pcxRoot (tableIndex a 3) &&& pfPres = 0
  · rw [entryView, if_pos hp]
  · have hview := h.root_view hp
    have hq := h.forest.child _ [] _ _ h.forest.own_root hview
    have hslot := hinit.zero _ _ (tableIndex a 2) hq (by simp) (by simp) fun he => ha (by
      obtain ⟨h2, h3⟩ := List.cons.inj he
      exact ⟨(List.cons.inj h3).1, h2⟩)
    rw [hview]
    simp only [pathFrom, find, hslot, zero_view]

theorem represents_init (p0 : Paging) (hd : S.Delivers (p0.pmmTaken + 258)) :
    Represents S (pcxInit S p0) AddressSpace.init := by
  obtain ⟨own, h, hinit⟩ := pcxInit_built p0 fun k hk => (hd k hk).1
  have hwin : ∀ a, 2 ^ 36 - 2 ^ 18 ≤ (pageOf a).toNat ↔ InWindow a := by
    intro a
    rw [pageOf_toNat, inWindow_iff]
  refine ⟨⟨own, h, linked_init h hinit⟩, fun a => ?_, fun a => ?_⟩
  · by_cases ha : InWindow a
    · rw [h.lookup_window ha, AddressSpace.init, if_pos ((hwin a).mpr ha)]
      have hi : tableIndex a 1 = (pageOf a).extractLsb' 9 9 := by
        apply BitVec.eq_of_toNat_eq
        simp only [tableIndex, BitVec.extractLsb'_toNat, pageOf_toNat, Nat.shiftRight_eq_div_pow]
        omega
      rw [hi]
    · rw [pcxInit_lookup p0 hd ha, AddressSpace.init, if_neg (mt (hwin a).mp ha)]
  · rw [AddressSpace.init, ← hwin a]
    split_ifs with hn
    · exact iff_of_true trivial hn
    · exact iff_of_false not_false hn

end Start

section Steps

theorem pageOf_eq_iff (a b : Word) : pageOf a = pageOf b ↔ pathFrom a 4 = pathFrom b 4 :=
  (pathFrom_eq_iff a b).symm

theorem not_large_leaf (e : Word) : ¬ IsLarge (leafOf e) := by
  unfold leafOf
  split_ifs <;> exact not_false

theorem Represents.setFrame (h : Represents S p m) {addr size frame flags : Word}
    (hd : S.Delivers (pcxSetFrame S p 0 addr size frame flags).2.pmmTaken) :
    (pcxSetFrame S p 0 addr size frame flags).1 = (m.setFrame addr size frame flags).1 ∧
      Represents S (pcxSetFrame S p 0 addr size frame flags).2
        (m.setFrame addr size frame flags).2 := by
  obtain ⟨own, htree, hlinked⟩ := h.tree
  by_cases hal : size &&& 0xFFF ≠ 0 ∨ addr &&& 0xFFF ≠ 0
  · rw [pcxSetFrame_root, if_pos hal, AddressSpace.setFrame,
      if_pos (hal.imp_right Or.inl)]
    exact ⟨rfl, h⟩
  · rw [pcxSetFrame_root, if_neg hal] at hd ⊢
    have hed := pcxSetFrameFrom_edited htree htree.forest.own_root rfl rfl hd
    have hinv := pcxSetFrameFrom_linked htree hlinked htree.forest.own_root rfl hd
    generalize pcxSetFrameFrom S addr frame flags 3 p.pcxRoot p = r at hed hinv ⊢
    obtain ⟨hs, ha⟩ := not_or.mp hal
    by_cases hw : InWindow addr
    · rw [AddressSpace.setFrame, if_pos (Or.inr (Or.inr ((h.large addr).mpr hw)))]
      refine ⟨hed.ret.trans (if_pos hw), hinv, fun b => ?_, h.large⟩
      rw [hed.lookup, if_neg fun hb => hb.2 hw]
      exact h.lookup b
    · have hno : ¬ (size &&& 0xFFF ≠ 0 ∨ addr &&& 0xFFF ≠ 0 ∨ IsLarge (m (pageOf addr))) := by
        rintro (hc | hc | hc)
        · exact hs hc
        · exact ha hc
        · exact hw ((h.large addr).mp hc)
      rw [AddressSpace.setFrame, if_neg hno]
      refine ⟨hed.ret.trans (if_neg hw), hinv, fun b => ?_, fun b => ?_⟩
      · change _ = Function.update m (pageOf addr) (leafOf (frame ||| flags)) (pageOf b)
        rw [hed.lookup]
        by_cases hb : pageOf b = pageOf addr
        · rw [if_pos ⟨(pageOf_eq_iff b addr).mp hb, hw⟩, hb, Function.update_self]
        · rw [if_neg fun hc => hb ((pageOf_eq_iff b addr).mpr hc.1), Function.update_of_ne hb]
          exact h.lookup b
      · change IsLarge (Function.update m (pageOf addr) (leafOf (frame ||| flags)) (pageOf b)) ↔ _
        by_cases hb : pageOf b = pageOf addr
        · rw [hb, Function.update_self]
          refine iff_of_false (not_large_leaf _) fun hc => hw ?_
          rwa [inWindow_iff, ← pageOf_toNat, ← hb, pageOf_toNat, ← inWindow_iff]
        · rw [Function.update_of_ne hb]
          exact h.large b

theorem Represents.setPages (h : Represents S p m) {vbase pbase flags : Word} {n : ℕ} {i : Word}
    (hd : S.Delivers (pageSetFrom S vbase pbase flags n i p).2.pmmTaken) :
    (pageSetFrom S vbase pbase flags n i p).1 = (m.setPages vbase pbase flags n i).1 ∧
      Represents S (pageSetFrom S vbase pbase flags n i p).2
        (m.setPages vbase pbase flags n i).2 := by
  induction n generalizing i p m with
  | zero => exact ⟨rfl, h⟩
  | succ n ih =>
    simp only [pageSetFrom, AddressSpace.setPages] at hd ⊢
    have hfirst : S.Delivers (pcxSetFrame S p 0 (vbase + i) 0x1000 (pbase + i) flags).2.pmmTaken := by
      refine TreeInv.Delivers.mono hd ?_
      split_ifs
      · exact le_rfl
      · exact pageSetFrom_taken ..
    obtain ⟨hr, h'⟩ := h.setFrame hfirst
    rw [← hr]
    split_ifs at hd ⊢ with h0
    · exact ⟨rfl, h'⟩
    · exact ih h' hd

theorem Paging.call_taken (p : Paging) (c : PagingCall) : p.pmmTaken ≤ (p.call S c).2.pmmTaken := by
  cases c with
  | setFrame => exact pcxSetFrame_taken ..
  | pageSet => exact apilogicPageSet_taken ..
  | getTrans => exact le_rfl
  | getFrame => exact le_rfl
  | getFlags => exact le_rfl
  | pageGet => exact le_rfl

theorem pageOf_frame (a : Word) : pageOf (a &&& -0x1000) = pageOf a := by
  apply BitVec.eq_of_getLsbD_eq
  intro i hi
  have hbit : (-0x1000 : Word).getLsbD (12 + i) = true := by
    have h36 : ∀ j < 36, (-0x1000 : Word).getLsbD (12 + j) = true := by decide
    exact h36 i hi
  simp only [pageOf, BitVec.getLsbD_extractLsb', BitVec.getLsbD_and, hbit, Bool.and_true]

/-- A call is answered from the address space, and leaves the tables representing it. -/
theorem Represents.call (h : Represents S p m) (c : PagingCall)
    (hd : S.Delivers (p.call S c).2.pmmTaken) :
    (p.call S c).1 = (m.call c).1 ∧ Represents S (p.call S c).2 (m.call c).2 := by
  cases c with
  | setFrame addr size frame flags =>
    obtain ⟨hr, h'⟩ := h.setFrame hd
    exact ⟨congrArg PagingAnswer.code hr, h'⟩
  | getTrans addr =>
    refine ⟨congrArg PagingAnswer.word ?_, h⟩
    rw [pcxGetTrans_eq, h.lookup]
  | getFrame addr =>
    refine ⟨congrArg PagingAnswer.word ?_, h⟩
    rw [pcxGetFrame, pcxGetTrans_eq, h.lookup, pageOf_frame]
  | getFlags addr =>
    refine ⟨congrArg PagingAnswer.word ?_, h⟩
    rw [pcxGetFlags_eq, h.lookup]
  | pageSet vbase pbase flags size =>
    simp only [Paging.call, AddressSpace.call, apilogicPageSet] at hd ⊢
    split_ifs at hd ⊢ with hal
    · exact ⟨rfl, h⟩
    · obtain ⟨hr, h'⟩ := h.setPages hd
      exact ⟨congrArg PagingAnswer.done hr, h'⟩
  | pageGet vaddr =>
    refine ⟨congrArg PagingAnswer.content ?_, h⟩
    rw [apilogicPageGet, pcxGetTrans_eq, pcxGetFlags_eq, h.lookup]

theorem answers_taken (cs : List PagingCall) (p : Paging) :
    p.pmmTaken ≤ (answers (Paging.call S) p cs).2.pmmTaken := by
  induction cs generalizing p with
  | nil => exact le_rfl
  | cons c cs ih => exact (p.call_taken c).trans (ih _)

theorem Represents.answers (h : Represents S p m) {cs : List PagingCall}
    (hd : S.Delivers (answers (Paging.call S) p cs).2.pmmTaken) :
    (answers (Paging.call S) p cs).1 = (answers AddressSpace.call m cs).1 ∧
      Represents S (answers (Paging.call S) p cs).2 (answers AddressSpace.call m cs).2 := by
  induction cs generalizing p m with
  | nil => exact ⟨rfl, h⟩
  | cons c cs ih =>
    obtain ⟨hc, h'⟩ := h.call c (TreeInv.Delivers.mono hd (answers_taken cs _))
    obtain ⟨hcs, h''⟩ := ih h' hd
    exact ⟨congrArg₂ List.cons hc hcs, h''⟩

end Steps

section Runs
variable {p0 : Paging}

/-- Any sequence of calls into page.c is answered as by a flat map of pages, as long as the pages
for the tables last: that tables are entered, and shared between neighbours, is never seen. -/
theorem address_space_refined (h0 : S.Delivers (p0.pmmTaken + 258)) (cs : List PagingCall)
    (hd : S.Delivers (answers (Paging.call S) (pcxInit S p0) cs).2.pmmTaken) :
    (answers (Paging.call S) (pcxInit S p0) cs).1 = (answers AddressSpace.call .init cs).1 :=
  ((represents_init p0 h0).answers hd).1

theorem boot_delivers (addr frame flags : Word) (cs : List PagingCall)
    (hcs : ∀ p, (answers (Paging.call lowMemory) p cs).2 = p) :
    lowMemory.Delivers (answers (Paging.call lowMemory) (pcxInit lowMemory bootPaging)
      (.setFrame addr 0x1000 frame flags :: cs)).2.pmmTaken := by
  have ht := pcxSetFrame_taken_le (S := lowMemory) (pcxInit lowMemory bootPaging) addr 0x1000 frame
    flags
  rw [pcxInit_taken] at ht
  refine lowMemory_delivers (le_trans ?_ (ht.trans (by decide)))
  simp only [answers, hcs]
  exact le_rfl

/-- A page is entered, read and looked at through its neighbour. -/
theorem address_space_refined_one_page :
    (answers (Paging.call lowMemory) (pcxInit lowMemory bootPaging)
      [.setFrame 0x400000 0x1000 0x201000 0x7, .getTrans 0x400234, .getFlags 0x401000]).1 =
        [.code 0, .word 0x201234, .word 0] :=
  (address_space_refined (lowMemory_delivers (by decide)) _
    (boot_delivers _ _ _ [.getTrans 0x400234, .getFlags 0x401000] fun _ => rfl)).trans (by decide)

/-- The processor reads the flat map too. User code gets no further than the lower half and the
flags of the entry, whatever has been asked for. -/
theorem mmu_refined (h0 : S.Delivers (p0.pmmTaken + 258)) (cs : List PagingCall)
    (hd : S.Delivers (answers (Paging.call S) (pcxInit S p0) cs).2.pmmTaken) (addr : Word) :
    (answers (Paging.call S) (pcxInit S p0) cs).2.mmu addr =
        (answers AddressSpace.call .init cs).2.mmu addr ∧
      ∀ x r, (answers (Paging.call S) (pcxInit S p0) cs).2.mmu addr = some (x, r) →
        r.user = true → addr.toNat < 2 ^ 47 := by
  obtain ⟨-, hrep⟩ := (represents_init p0 h0).answers hd
  generalize (answers (Paging.call S) (pcxInit S p0) cs).2 = p at hrep hd ⊢
  generalize (answers AddressSpace.call .init cs).2 = m at hrep ⊢
  obtain ⟨own, htree, hlinked⟩ := hrep.tree
  have heq : p.mmu addr = m.mmu addr := by
    by_cases hc : Canonical addr
    · rw [mmu_eq htree hlinked hd hc, hrep.lookup, AddressSpace.mmu, if_pos hc]
    · rw [Paging.mmu, if_neg hc, AddressSpace.mmu, if_neg hc]
  refine ⟨heq, fun x r hx hr => ?_⟩
  rw [heq, AddressSpace.mmu, Option.ite_none_right_eq_some, Option.bind_eq_some_iff] at hx
  obtain ⟨-, ⟨h, e⟩, -, hleaf⟩ := hx
  rw [mmuLeaf, Option.ite_none_left_eq_some] at hleaf
  obtain ⟨-, rfl⟩ := Prod.mk.inj (Option.some.inj hleaf.2)
  rw [Rights.pass, Bool.and_eq_true] at hr
  exact of_decide_eq_true hr.1

theorem mmu_refined_one_page :
    (answers (Paging.call lowMemory) (pcxInit lowMemory bootPaging)
      [.setFrame 0x400000 0x1000 0x201000 0x5]).2.mmu 0x400234 = some (0x201234, ⟨true, false⟩) :=
  (mmu_refined (lowMemory_delivers (by decide)) _ (boot_delivers _ _ _ [] fun _ => rfl)
    0x400234).1.trans (by decide)

end Runs
end Pinion64
