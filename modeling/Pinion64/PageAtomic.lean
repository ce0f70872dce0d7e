import Pinion64.PageApi
import Mathlib.Data.Finset.Card
import Mathlib.Data.Finset.Union

/-! page_set that fails: which pages it takes from the allocator, where it stops, and what it has
mapped by then. -/
namespace Pinion64
open Radix

variable {S : PageSource} {p q : Paging} {own : Ptr → Option (List (BitVec 9))}

section Growth

/-- Whether the path, kept in reverse, leads to a table. -/
def Paging.hasTable (p : Paging) (w : List (BitVec 9)) : Bool :=
  (tableAt entryView 4 p.mem p.pcxRoot w).isSome

theorem TreeInv.hasTable_iff (h : TreeInv S p own) (w : List (BitVec 9)) :
    p.hasTable w = true ↔ ∃ q, own q = some w := by
  simp only [Paging.hasTable, Option.isSome_iff_exists, h.forest.tableAt_iff]

/-- The tables `T` that were missing have been added, at the price of one page each. -/
structure Grown (p q : Paging) (T : Finset (List (BitVec 9))) : Prop where
  tables : ∀ w, q.hasTable w = true ↔ p.hasTable w = true ∨ w ∈ T
  taken : q.pmmTaken = p.pmmTaken + (T.filter (p.hasTable · = false)).card

namespace Grown

variable {r : Paging} {T U : Finset (List (BitVec 9))}

theorem card_union (h : Grown p q T) : ((T ∪ U).filter (p.hasTable · = false)).card =
    (T.filter (p.hasTable · = false)).card + (U.filter (q.hasTable · = false)).card := by
  have hu : (T ∪ U).filter (p.hasTable · = false) =
      T.filter (p.hasTable · = false) ∪ U.filter (q.hasTable · = false) := by
    ext w
    have hw := h.tables w
    simp only [Finset.mem_filter, Finset.mem_union, ← Bool.not_eq_true, hw]
    tauto
  rw [hu, Finset.card_union_of_disjoint]
  refine Finset.disjoint_left.mpr fun w hT hU => ?_
  have hq := (h.tables w).mpr (Or.inr (Finset.mem_filter.mp hT).1)
  rw [(Finset.mem_filter.mp hU).2] at hq
  contradiction

theorem trans (h : Grown p q T) (h' : Grown q r U) : Grown p r (T ∪ U) where
  tables w := by rw [h'.tables, h.tables, Finset.mem_union, or_assoc]
  taken := by rw [h'.taken, h.taken, h.card_union, Nat.add_assoc]

theorem refl (p : Paging) : Grown p p ∅ := ⟨by simp, by simp⟩

end Grown

theorem TreeInv.hasTable_empty (h : TreeInv S p own) {pt : Ptr} {w : List (BitVec 9)}
    {i : BitVec 9} (hpt : own pt = some w) (hp : p.mem pt i &&& pfPres = 0) :
    p.hasTable (i :: w) = false := by
  rw [← Bool.not_eq_true, h.hasTable_iff]
  rintro ⟨t, ht⟩
  obtain ⟨s, hs, hv⟩ := h.forest.parent t w i ht
  obtain rfl := h.forest.label_injective hpt hs
  rw [entryView, if_pos hp] at hv
  cases hv

/-- Going down into a slot grows the tree by the table below it, unless the slot is large. -/
theorem TreeInv.enter_grown (h : TreeInv S p own) {pt : Ptr} {w : List (BitVec 9)} {i : BitVec 9}
    (hpt : own pt = some w) (hw : w.length < 3)
    (hd : p.mem pt i &&& pfPres = 0 → S.Delivers (p.pmmTaken + 1))
    (hl : (enterTable S p pt i).mem pt i &&& pfLarge = 0) :
    Grown p (enterTable S p pt i) {i :: w} := by
  obtain ⟨h', -⟩ := h.enter hpt hw i hd
  by_cases hp : p.mem pt i &&& pfPres = 0
  · have hlab : enterLabel S p pt i w own =
        Function.update own (S.page p.pmmTaken) (some (i :: w)) := if_pos hp
    have htab : enterTable S p pt i = newTable S p pt i := if_pos hp
    rw [hlab] at h'
    have hfresh := h.next_fresh (hd hp p.pmmTaken (by omega)).1
    refine ⟨fun v => ?_, ?_⟩
    · rw [h'.hasTable_iff, h.hasTable_iff, Finset.mem_singleton]
      constructor
      · rintro ⟨t, ht⟩
        by_cases he : t = S.page p.pmmTaken
        · rw [he, Function.update_self] at ht
          exact Or.inr (Option.some.inj ht).symm
        · rw [Function.update_of_ne he] at ht
          exact Or.inl ⟨t, ht⟩
      · rintro (⟨t, ht⟩ | rfl)
        · refine ⟨t, ?_⟩
          rw [Function.update_of_ne]
          · exact ht
          · rintro rfl
            rw [hfresh] at ht
            contradiction
        · exact ⟨_, Function.update_self ..⟩
    · rw [Finset.filter_singleton, if_pos (h.hasTable_empty hpt hp), Finset.card_singleton, htab]
      rfl
  · have htab : enterTable S p pt i = p := if_neg hp
    rw [htab] at hl ⊢
    have hyes : p.hasTable (i :: w) = true := by
      refine (h.hasTable_iff _).mpr ⟨frameOf (p.mem pt i) + base, h.forest.child pt w i _ hpt ?_⟩
      rw [entryView, if_neg hp, if_neg]
      rintro (hl' | hw')
      · exact hl' hl
      · omega
    refine ⟨fun v => ?_, ?_⟩
    · rw [Finset.mem_singleton]
      refine ⟨Or.inl, ?_⟩
      rintro (hv | rfl)
      · exact hv
      · exact hyes
    · rw [Finset.filter_singleton, if_neg (by simp [hyes]), Finset.card_empty, Nat.add_zero]

/-- The tables on the path of an address below the table that is labelled `w`. -/
def tablesBelow (addr : Word) : ℕ → List (BitVec 9) → Finset (List (BitVec 9))
  | 0, _ => ∅
  | n+1, w => {tableIndex addr (n+1) :: w} ∪ tablesBelow addr n (tableIndex addr (n+1) :: w)

/-- The tables through which an address is mapped. -/
def tablesOn (addr : Word) : Finset (List (BitVec 9)) := tablesBelow addr 3 []

theorem pcxSetFrameFrom_grown {addr frame flags : Word} {n N : ℕ} {pt : Ptr}
    {w : List (BitVec 9)} (h : TreeInv S p own) (hpt : own pt = some w) (hlen : w.length + n = 3)
    (hpath : pathFrom addr 4 = w.reverse ++ pathFrom addr (n+1)) (hwin : ¬ InWindow addr)
    (hd : S.Delivers N)
    (hN : (pcxSetFrameFrom S addr frame flags n pt p).2.pmmTaken ≤ N ∨
      p.pmmTaken + ((tablesBelow addr n w).filter (p.hasTable · = false)).card ≤ N) :
    Grown p (pcxSetFrameFrom S addr frame flags n pt p).2 (tablesBelow addr n w) := by
  induction n generalizing p own pt w with
  | zero =>
    have h' := h.write_last (i := tableIndex addr 0) (e := frame ||| flags) hpt hlen
    refine ⟨fun v => ?_, by simp [tablesBelow, pcxSetFrameFrom]⟩
    rw [h.hasTable_iff]
    exact (h'.hasTable_iff v).trans (by simp [tablesBelow])
  | succ n ih =>
    have hidx : pathFrom addr (n+2) = tableIndex addr (n+1) :: pathFrom addr (n+1) := rfl
    have hstep : pcxSetFrameFrom S addr frame flags (n+1) pt p =
        if (enterTable S p pt (tableIndex addr (n+1))).mem pt (tableIndex addr (n+1)) &&& pfLarge
          ≠ 0 then (1, enterTable S p pt (tableIndex addr (n+1)))
        else pcxSetFrameFrom S addr frame flags n
          (frameOf ((enterTable S p pt (tableIndex addr (n+1))).mem pt (tableIndex addr (n+1))) +
            base) (enterTable S p pt (tableIndex addr (n+1))) := rfl
    have henter : p.mem pt (tableIndex addr (n+1)) &&& pfPres = 0 →
        S.Delivers (p.pmmTaken + 1) := by
      intro hp
      refine TreeInv.Delivers.mono hd ?_
      rcases hN with hN | hN
      · refine le_trans ?_ hN
        rw [hstep, enterTable, if_pos hp]
        split_ifs
        · exact le_rfl
        · exact pcxSetFrameFrom_taken (newTable S p pt _) addr frame flags n _
      · refine le_trans (Nat.add_le_add_left (Finset.card_pos.mpr ?_) _) hN
        exact ⟨tableIndex addr (n+1) :: w, Finset.mem_filter.mpr
          ⟨Finset.mem_union_left _ (Finset.mem_singleton_self _), h.hasTable_empty hpt hp⟩⟩
    obtain ⟨h', hpt', -, hpres⟩ := h.enter hpt (by omega) (tableIndex addr (n+1)) henter
    have hlarge : (enterTable S p pt (tableIndex addr (n+1))).mem pt (tableIndex addr (n+1)) &&&
        pfLarge = 0 := by
      by_contra hl
      obtain rfl := h'.large pt w _ hpt' (by omega) hpres hl
      simp only [pathFrom, List.reverse_cons, List.reverse_nil, List.nil_append,
        List.cons_append, List.cons.injEq] at hpath
      exact hwin ⟨hpath.1, hpath.2.1⟩
    have hgrown := h.enter_grown hpt (by omega) henter hlarge
    rw [hstep, if_neg (not_not.mpr hlarge)] at hN ⊢
    generalize hq : enterTable S p pt (tableIndex addr (n+1)) = q at h' hpt' hpres hlarge hgrown hN ⊢
    have hchild := h'.forest.child pt w (tableIndex addr (n+1)) _ hpt' (by
      rw [entryView, if_neg hpres, if_neg]
      rintro (hl | hw)
      · exact hl hlarge
      · omega)
    refine hgrown.trans (ih h' hchild (by simp; omega) (by simpa [hidx] using hpath) ?_)
    rcases hN with hN | hN
    · exact Or.inl hN
    · right
      rw [tablesBelow, hgrown.card_union] at hN
      rw [hgrown.taken]
      omega

theorem entryView_eq_table {h : ℕ} {e : Word} {t : Ptr} (hv : entryView h e = .table t) :
    e &&& pfPres ≠ 0 ∧ e &&& pfLarge = 0 ∧ frameOf e + base = t := by
  unfold entryView at hv
  split_ifs at hv with h1 h2
  · exact ⟨h1, not_not.mp (not_or.mp h2).1, Slot.table.inj hv⟩

theorem pcxSetFrameFrom_table {addr frame flags : Word} {n : ℕ} {pt t : Ptr}
    (hv : entryView (n+1) (p.mem pt (tableIndex addr (n+1))) = .table t) :
    pcxSetFrameFrom S addr frame flags (n+1) pt p = pcxSetFrameFrom S addr frame flags n t p := by
  obtain ⟨h1, h2, rfl⟩ := entryView_eq_table hv
  rw [pcxSetFrameFrom]
  simp only [if_neg h1, h2, ne_eq, not_true_eq_false, if_false]

/-- A page of the window is refused before anything has been changed. -/
theorem pcxSetFrame_window (h : TreeInv S p own) {addr size : Word} (hw : InWindow addr)
    (frame flags : Word) : pcxSetFrame S p 0 addr size frame flags = (1, p) := by
  obtain ⟨pt2, h2, hm⟩ := h.window
  obtain ⟨pt3, h3, hv3⟩ := h.forest.parent pt2 [511] 511 h2
  obtain ⟨root, h4, hv4⟩ := h.forest.parent pt3 [] 511 h3
  obtain rfl := (h.forest.root root).mp h4
  have hlast : pcxSetFrameFrom S addr frame flags 1 pt2 p = (1, p) := by
    have hbits : pinionPt2 (tableIndex addr 1) &&& pfPres ≠ 0 ∧
        pinionPt2 (tableIndex addr 1) &&& pfLarge ≠ 0 := by
      generalize tableIndex addr 1 = i
      revert i
      decide
    simp only [pcxSetFrameFrom, hm, if_neg hbits.1, if_pos hbits.2]
  rw [pcxSetFrame_root]
  split_ifs
  · rfl
  · rw [pcxSetFrameFrom_table (t := pt3) (by rw [hw.1]; exact hv4),
      pcxSetFrameFrom_table (t := pt2) (by rw [hw.2]; exact hv3), hlast]

theorem pcxSetFrame_grown (h : TreeInv S p own) {addr frame flags : Word} {N : ℕ}
    (ha : addr &&& 0xFFF = 0) (hwin : ¬ InWindow addr) (hd : S.Delivers N)
    (hN : (pcxSetFrame S p 0 addr 0x1000 frame flags).2.pmmTaken ≤ N ∨
      p.pmmTaken + ((tablesOn addr).filter (p.hasTable · = false)).card ≤ N) :
    Grown p (pcxSetFrame S p 0 addr 0x1000 frame flags).2 (tablesOn addr) := by
  have he : pcxSetFrame S p 0 addr 0x1000 frame flags =
      pcxSetFrameFrom S addr frame flags 3 p.pcxRoot p := by
    rw [pcxSetFrame_root, if_neg]
    rintro (hs | hs)
    · exact hs (by decide)
    · exact hs ha
  rw [he] at hN ⊢
  exact pcxSetFrameFrom_grown h h.forest.own_root rfl rfl hwin hd hN

/-- The tables through which the first `m` pages of a range are mapped. -/
def rangeTables (vbase i : Word) (m : ℕ) : Finset (List (BitVec 9)) :=
  (Finset.range m).biUnion fun k => tablesOn (nthPage vbase i k)

theorem rangeTables_succ (vbase i : Word) (m : ℕ) : rangeTables vbase i (m+1) =
    tablesOn (vbase + i) ∪ rangeTables vbase (i + 0x1000) m := by
  have hsucc : ∀ k, tablesOn (nthPage vbase i (k+1)) =
      tablesOn (nthPage vbase (i + 0x1000) k) := fun k => by rw [nthPage_succ]
  ext w
  simp only [rangeTables, Finset.mem_biUnion, Finset.mem_range, Finset.mem_union]
  constructor
  · rintro ⟨k, hk, hw⟩
    cases k with
    | zero =>
      rw [nthPage_zero] at hw
      exact Or.inl hw
    | succ k =>
      rw [hsucc] at hw
      exact Or.inr ⟨k, by omega, hw⟩
  · rintro (hw | ⟨k, hk, hw⟩)
    · refine ⟨0, by omega, ?_⟩
      rwa [nthPage_zero]
    · refine ⟨k+1, by omega, ?_⟩
      rwa [hsucc]

/-- As long as the pages last, a page_set takes one for each table that is missing. -/
theorem pageSetFrom_grown {vbase pbase flags : Word} {n m N : ℕ} {i : Word} (h : TreeInv S p own)
    (hv : vbase &&& 0xFFF = 0) (hi : i &&& 0xFFF = 0) (hm : m ≤ n)
    (hclear : ∀ k < m, ¬ InWindow (nthPage vbase i k))
    (hstop : m = n ∨ InWindow (nthPage vbase i m)) (hd : S.Delivers N)
    (hN : (pageSetFrom S vbase pbase flags n i p).2.pmmTaken ≤ N ∨
      p.pmmTaken + ((rangeTables vbase i m).filter (p.hasTable · = false)).card ≤ N) :
    Grown p (pageSetFrom S vbase pbase flags n i p).2 (rangeTables vbase i m) := by
  induction n generalizing m i p own with
  | zero =>
    obtain rfl : m = 0 := by omega
    exact Grown.refl p
  | succ n ih =>
    have ha : vbase + i &&& 0xFFF = 0 := by
      have := aligned_nthPage hv hi 0
      rwa [nthPage_zero] at this
    have hstep : pageSetFrom S vbase pbase flags (n+1) i p =
        if (pcxSetFrame S p 0 (vbase + i) 0x1000 (pbase + i) flags).1 ≠ 0 then
          (false, (pcxSetFrame S p 0 (vbase + i) 0x1000 (pbase + i) flags).2)
        else pageSetFrom S vbase pbase flags n (i + 0x1000)
          (pcxSetFrame S p 0 (vbase + i) 0x1000 (pbase + i) flags).2 := rfl
    have hle : (pcxSetFrame S p 0 (vbase + i) 0x1000 (pbase + i) flags).2.pmmTaken ≤
        (pageSetFrom S vbase pbase flags (n+1) i p).2.pmmTaken := by
      rw [hstep]
      split_ifs
      · exact le_rfl
      · exact pageSetFrom_taken ..
    cases m with
    | zero =>
      have hw : InWindow (vbase + i) := by
        have := hstop.resolve_left (by omega)
        rwa [nthPage_zero] at this
      rw [hstep, pcxSetFrame_window h hw, if_pos one_ne_zero]
      exact Grown.refl p
    | succ m =>
      have hwin : ¬ InWindow (vbase + i) := by
        rw [← nthPage_zero]
        exact hclear 0 (by omega)
      have hfirst : Grown p (pcxSetFrame S p 0 (vbase + i) 0x1000 (pbase + i) flags).2
          (tablesOn (vbase + i)) := by
        refine pcxSetFrame_grown h ha hwin hd ?_
        rcases hN with hN | hN
        · exact Or.inl (hle.trans hN)
        · right
          refine le_trans (Nat.add_le_add_left (Finset.card_le_card ?_) _) hN
          rw [rangeTables_succ]
          exact Finset.filter_subset_filter _ Finset.subset_union_left
      have htaken : (pcxSetFrame S p 0 (vbase + i) 0x1000 (pbase + i) flags).2.pmmTaken ≤ N := by
        rcases hN with hN | hN
        · exact hle.trans hN
        · rw [rangeTables_succ, hfirst.card_union] at hN
          rw [hfirst.taken]
          omega
      have hed := pcxSetFrame_edited h ha (pbase + i) flags (TreeInv.Delivers.mono hd htaken)
      obtain ⟨own', hinv⟩ := hed.inv
      have hret := hed.ret
      rw [if_neg hwin] at hret
      rw [hstep, hret, if_neg (not_not.mpr rfl)] at hN ⊢
      rw [rangeTables_succ] at hN ⊢
      refine hfirst.trans (ih hinv (aligned_next hi) (by omega) (fun k hk => ?_) ?_ ?_)
      · rw [nthPage_succ]
        exact hclear (k+1) (by omega)
      · rw [nthPage_succ, ← Nat.succ_inj]
        exact hstop
      · rw [hfirst.card_union, ← Nat.add_assoc, ← hfirst.taken] at hN
        exact hN

end Growth

section Atomic

/-- The source hands out `N` pages and then NULL. -/
structure PageSource.Holds (S : PageSource) (N : ℕ) : Prop where
  delivers : S.Delivers N
  exhausted : ∀ k, N ≤ k → S.page k = 0

/-- What page_set promises for an error. Every page that it takes is cleared as a table at once,
so none may be NULL. -/
structure AtomicOnError (S : PageSource) (p : Paging) (vbase pbase flags size : Word) : Prop where
  noNull : ∀ k, p.pmmTaken ≤ k →
    k < (apilogicPageSet S p vbase pbase flags size).2.pmmTaken → S.page k ≠ 0
  unchanged : (apilogicPageSet S p vbase pbase flags size).1 = false → ∀ a,
    pcxGetTrans (apilogicPageSet S p vbase pbase flags size).2 0 a = pcxGetTrans p 0 a ∧
    pcxGetFlags (apilogicPageSet S p vbase pbase flags size).2 0 a = pcxGetFlags p 0 a

/-- How many pages of a range lie before the window. -/
def clearPages (vbase size : Word) : ℕ :=
  min (size.toNat / 0x1000) (2 ^ 36 - 2 ^ 18 - vbase.toNat / 4096 % 2 ^ 36)

/-- The page is already mapped as the entry would map it. -/
def Paging.MapsTo (p : Paging) (a e : Word) : Prop :=
  pcxGetTrans p 0 a = transOf a (leafOf e) ∧ pcxGetFlags p 0 a = flagsOf (leafOf e)

/-- There are pages for all tables that are missing, and if the range runs into the window, what
lies before it is mapped as asked for. -/
structure PageSetSafe (p : Paging) (N : ℕ) (vbase pbase flags size : Word) : Prop where
  enough : p.pmmTaken + ((rangeTables vbase 0 (clearPages vbase size)).filter
    (p.hasTable · = false)).card ≤ N
  same : clearPages vbase size = size.toNat / 0x1000 ∨ ∀ k < clearPages vbase size,
    p.MapsTo (nthPage vbase 0 k) (nthPage pbase 0 k ||| flags)

variable {vbase pbase flags size : Word}

theorem clearPages_spec (vbase size : Word) : clearPages vbase size ≤ size.toNat / 0x1000 ∧
    (∀ k < clearPages vbase size, ¬ InWindow (nthPage vbase 0 k)) ∧
    (clearPages vbase size = size.toNat / 0x1000 ∨
      InWindow (nthPage vbase 0 (clearPages vbase size))) := by
  have hstart : vbase + 0 = vbase := BitVec.add_zero _
  unfold clearPages
  simp only [inWindow_iff, nthPage_number, hstart]
  refine ⟨by omega, fun k hk => by omega, by omega⟩

theorem PageSetOutcome.length {r : Bool × Paging} {m : ℕ}
    (h : PageSetOutcome p vbase pbase flags 0 (size.toNat / 0x1000) m r) :
    m = clearPages vbase size := by
  obtain ⟨hle, hclear, hstop⟩ := clearPages_spec vbase size
  rcases Nat.lt_trichotomy m (clearPages vbase size) with hlt | he | hgt
  · exact absurd (h.stop.resolve_left (by omega)) (hclear m hlt)
  · exact he
  · have hm := h.le
    exact absurd (hstop.resolve_left (by omega)) (h.clear _ hgt)

/-- Outside the window there are only small pages. -/
theorem TreeInv.find_small (h : TreeInv S p own) {a : Word} {n : ℕ} {pt : Ptr}
    {w : List (BitVec 9)} (hpt : own pt = some w) (hlen : w.length + n = 3)
    (hpath : pathFrom a 4 = w.reverse ++ pathFrom a (n+1)) (hwin : ¬ InWindow a) :
    find entryView p.mem (pathFrom a (n+1)) pt = none ∨
      ∃ e, find entryView p.mem (pathFrom a (n+1)) pt = some (0, e) := by
  induction n generalizing pt w with
  | zero =>
    rw [pathFrom, pathFrom, find_last, leafOf]
    split_ifs
    · exact Or.inl rfl
    · exact Or.inr ⟨_, rfl⟩
  | succ n ih =>
    have hidx : pathFrom a (n+2) = tableIndex a (n+1) :: pathFrom a (n+1) := rfl
    rw [hidx, find, pathFrom_length]
    rcases hv : entryView (n+1) (p.mem pt (tableIndex a (n+1))) with - | - | t
    · exact Or.inl rfl
    · unfold entryView at hv
      split_ifs at hv with hp hl
      obtain rfl := h.large pt w _ hpt (by omega) hp (hl.resolve_right not_false)
      simp only [pathFrom, List.reverse_cons, List.reverse_nil, List.nil_append,
        List.cons_append, List.cons.injEq] at hpath
      exact absurd ⟨hpath.1, hpath.2.1⟩ hwin
    · have hchild := h.forest.child pt w (tableIndex a (n+1)) t hpt
        (by rw [show 4 - (w.length + 1) = n + 1 by omega]; exact hv)
      exact ih hchild (by simp; omega) (by simpa [hidx] using hpath)

theorem frameOf_ne (e : Word) : frameOf e ≠ -1 := by
  intro he
  have hb := congrArg (fun x : Word => x.getLsbD 0) he
  simp [frameOf, pfBits] at hb

/-- An aligned page that maps as the entry says does so at every offset. -/
theorem MapsTo.lookup {a e : Word} (h : TreeInv S p own) (ha : a &&& 0xFFF = 0)
    (hwin : ¬ InWindow a) (hm : p.MapsTo a e) : p.lookup a = leafOf e ∨
      ∃ e', p.lookup a = some (0, e') ∧ leafOf e = some (0, e) ∧ frameOf e' = frameOf e ∧
        e' &&& pfBits = e &&& pfBits := by
  have hsmall : p.lookup a = none ∨ ∃ e', p.lookup a = some (0, e') :=
    h.find_small h.forest.own_root rfl rfl hwin
  have hoff : ∀ x, transOf a (some (0, x)) = frameOf x := by
    intro x
    rw [transOf, show offsetMask 0 = 0xFFF by decide, ha]
    exact BitVec.add_zero _
  rw [Paging.MapsTo, pcxGetTrans_eq, pcxGetFlags_eq] at hm
  unfold leafOf at hm ⊢
  rcases hsmall with hl | ⟨e', hl⟩ <;> rw [hl] at hm ⊢ <;> split_ifs at hm ⊢
  · exact Or.inl rfl
  · rw [hoff] at hm
    exact absurd hm.1.symm (frameOf_ne e)
  · rw [hoff] at hm
    exact absurd hm.1 (frameOf_ne e')
  · rw [hoff, hoff] at hm
    exact Or.inr ⟨e', rfl, rfl, hm.1, hm.2⟩

theorem lookup_congr {a b : Word} (h : pathFrom b 4 = pathFrom a 4) : p.lookup b = p.lookup a := by
  rw [Paging.lookup, h]
  rfl

theorem pageSet_of_aligned (h : (pbase ||| vbase ||| size) &&& 0xFFF = 0) (p : Paging) :
    apilogicPageSet S p vbase pbase flags size =
      pageSetFrom S vbase pbase flags (size.toNat / 0x1000) 0 p := by
  rw [apilogicPageSet, if_neg (not_not.mpr h)]

theorem aligned_of_or (h : (pbase ||| vbase ||| size) &&& 0xFFF = 0) :
    pbase &&& 0xFFF = 0 ∧ vbase &&& 0xFFF = 0 ∧ size &&& 0xFFF = 0 := by
  rw [BitVec.and_comm, BitVec.and_or_distrib_left, BitVec.and_or_distrib_left] at h
  simpa [BitVec.or_eq_zero_iff, BitVec.and_comm, and_assoc] using h

/-- What an aligned page_set takes and does while the pages last. -/
theorem pageSet_spec (h : TreeInv S p own) {N : ℕ} (hS : S.Delivers N)
    (hal : (pbase ||| vbase ||| size) &&& 0xFFF = 0)
    (hN : (apilogicPageSet S p vbase pbase flags size).2.pmmTaken ≤ N ∨
      p.pmmTaken + ((rangeTables vbase 0 (clearPages vbase size)).filter
        (p.hasTable · = false)).card ≤ N) :
    (apilogicPageSet S p vbase pbase flags size).2.pmmTaken = p.pmmTaken +
      ((rangeTables vbase 0 (clearPages vbase size)).filter (p.hasTable · = false)).card ∧
    PageSetOutcome p vbase pbase flags 0 (size.toNat / 0x1000) (clearPages vbase size)
      (apilogicPageSet S p vbase pbase flags size) := by
  obtain ⟨-, hv, -⟩ := aligned_of_or hal
  obtain ⟨hm, hclear, hstop⟩ := clearPages_spec vbase size
  rw [pageSet_of_aligned hal] at hN ⊢
  have hgrown := pageSetFrom_grown h hv (by decide) hm hclear hstop hS hN
  refine ⟨hgrown.taken, ?_⟩
  have hle : (pageSetFrom S vbase pbase flags (size.toNat / 0x1000) 0 p).2.pmmTaken ≤ N := by
    rcases hN with hN | hN
    · exact hN
    · rwa [hgrown.taken]
  obtain ⟨m, hout⟩ := pageSetFrom_outcome h hv (by decide) (TreeInv.Delivers.mono hS hle)
  exact hout.length ▸ hout

/-- page_set keeps its promise exactly if it is given an unaligned argument, or if it finds enough
pages and what it maps before the first page that is refused is mapped in that way already. -/
theorem page_set_atomic {N : ℕ} {p0 : Paging} (hS : S.Holds N) (h0 : p0.pmmTaken + 258 ≤ N)
    (hp : PagingReach S p0 p) (hN : p.pmmTaken ≤ N) (vbase pbase flags size : Word) :
    AtomicOnError S p vbase pbase flags size ↔
      (pbase ||| vbase ||| size) &&& 0xFFF ≠ 0 ∨ PageSetSafe p N vbase pbase flags size := by
  by_cases hal : (pbase ||| vbase ||| size) &&& 0xFFF = 0
  · obtain ⟨-, hv, -⟩ := aligned_of_or hal
    obtain ⟨own, hinv⟩ := hp.inv (TreeInv.Delivers.mono hS.delivers h0)
      (TreeInv.Delivers.mono hS.delivers hN)
    have hpage : ∀ k, nthPage vbase 0 k &&& 0xFFF = 0 := aligned_nthPage hv (by decide)
    have hspec := fun hle : (apilogicPageSet S p vbase pbase flags size).2.pmmTaken ≤ N ∨
        p.pmmTaken + ((rangeTables vbase 0 (clearPages vbase size)).filter
          (p.hasTable · = false)).card ≤ N => pageSet_spec hinv hS.delivers hal hle
    rw [or_iff_right (not_not.mpr hal)]
    constructor
    · intro h
      have hle : (apilogicPageSet S p vbase pbase flags size).2.pmmTaken ≤ N := by
        by_contra hgt
        exact h.noNull N hN (by omega) (hS.exhausted N le_rfl)
      obtain ⟨htaken, hout⟩ := hspec (Or.inl hle)
      refine ⟨htaken ▸ hle, or_iff_not_imp_left.mpr fun hne k hk => ?_⟩
      have hfalse : (apilogicPageSet S p vbase pbase flags size).1 = false :=
        Bool.eq_false_iff.mpr fun ht => hne (hout.ret.mp ht)
      obtain ⟨htrans, hflags⟩ := h.unchanged hfalse (nthPage vbase 0 k)
      rw [pcxGetTrans_eq, hout.mapped k hk _ rfl] at htrans
      rw [pcxGetFlags_eq, hout.mapped k hk _ rfl] at hflags
      exact ⟨htrans.symm, hflags.symm⟩
    · intro h
      obtain ⟨htaken, hout⟩ := hspec (Or.inr h.enough)
      refine ⟨fun k _ hk => (hS.delivers k ?_).1, fun hret a => ?_⟩
      · have := h.enough
        omega
      have hsame := h.same.resolve_left fun he => by simp [hout.ret.mpr he] at hret
      rw [pcxGetTrans_eq, pcxGetTrans_eq, pcxGetFlags_eq, pcxGetFlags_eq]
      by_cases hin : ∃ k < clearPages vbase size,
        pathFrom a 4 = pathFrom (nthPage vbase 0 k) 4
      · obtain ⟨k, hk, hpath⟩ := hin
        rw [hout.mapped k hk a hpath, lookup_congr hpath]
        rcases MapsTo.lookup hinv (hpage k) (hout.clear k hk) (hsame k hk) with
          he | ⟨e', hl, he, hframe, hbits⟩
        · rw [he]
          exact ⟨rfl, rfl⟩
        · rw [he, hl]
          simp only [transOf, flagsOf, hframe, hbits, and_self]
      · rw [hout.kept a fun k hk he => hin ⟨k, hk, he⟩]
        exact ⟨rfl, rfl⟩
  · have hres : apilogicPageSet S p vbase pbase flags size = (false, p) := if_pos hal
    refine ⟨fun _ => Or.inl hal, fun _ => ⟨fun k h1 h2 => ?_, fun _ a => ?_⟩⟩
    · rw [hres] at h2
      exact absurd h2 (not_lt.mpr h1)
    · rw [hres]
      exact ⟨rfl, rfl⟩

theorem lowMemory_holds : lowMemory.Holds 0x1FE00 where
  delivers := lowMemory_delivers le_rfl
  exhausted k hk := by
    have hp := lowMemory_page k
    rw [if_neg (by omega)] at hp
    exact BitVec.eq_of_toNat_eq hp

section Edge

/-- The last page before the window. -/
def edgePage : Word := 0xFFFFFFFFBFFFF000

/-- The page can be mapped. -/
theorem edge_mapped : ∃ p, PagingReach lowMemory bootPaging p ∧ p.pmmTaken ≤ 261 ∧
    p.lookup edgePage = some (0, 0x200031) := by
  obtain ⟨own, hinv⟩ := pcxInit_inv bootPaging (lowMemory_delivers (by decide))
  have ht : (pcxInit lowMemory bootPaging).pmmTaken = 258 := pcxInit_taken bootPaging
  have hle := pcxSetFrame_taken_le (S := lowMemory) (pcxInit lowMemory bootPaging) edgePage 0x1000
    0x200000 0x31
  rw [ht] at hle
  have hed := pcxSetFrame_edited hinv (show edgePage &&& 0xFFF = 0 by decide) 0x200000 0x31
    (lowMemory_delivers (hle.trans (by decide)))
  exact ⟨_, PagingReach.init.setFrame edgePage 0x1000 0x200000 0x31, hle,
    (hed.lookup edgePage).trans (if_pos ⟨rfl, by decide⟩)⟩

theorem edge_enough (p : Paging) (ht : p.pmmTaken ≤ 261) :
    p.pmmTaken + ((rangeTables edgePage 0 (clearPages edgePage 0x2000)).filter
      (p.hasTable · = false)).card ≤ 0x1FE00 := by
  have hc : (rangeTables edgePage 0 (clearPages edgePage 0x2000)).card ≤ 3 := by decide
  have hf := Finset.card_filter_le (rangeTables edgePage 0 (clearPages edgePage 0x2000))
    (p.hasTable · = false)
  omega

variable (hp : PagingReach lowMemory bootPaging p) (ht : p.pmmTaken ≤ 261)

include hp ht

/-- A range of two pages from there runs into the window; the first page is mapped before that. -/
theorem edge_refused (pbase : Word) (hal : (pbase ||| edgePage ||| 0x2000) &&& 0xFFF = 0) :
    (apilogicPageSet lowMemory p edgePage pbase 0x31 0x2000).1 = false ∧
      PageSetOutcome p edgePage pbase 0x31 0 2 1
        (apilogicPageSet lowMemory p edgePage pbase 0x31 0x2000) := by
  obtain ⟨own, hinv⟩ := hp.inv (lowMemory_delivers (by decide))
    (lowMemory_delivers (ht.trans (by decide)))
  have hone : clearPages edgePage 0x2000 = 1 := by decide
  have hout : PageSetOutcome p edgePage pbase 0x31 0 2 (clearPages edgePage 0x2000)
      (apilogicPageSet lowMemory p edgePage pbase 0x31 0x2000) :=
    (pageSet_spec hinv (lowMemory_delivers le_rfl) hal (Or.inr (edge_enough p ht))).2
  rw [hone] at hout
  exact ⟨Bool.eq_false_iff.mpr fun hr => absurd (hout.ret.mp hr) (by decide), hout⟩

end Edge

/-- The refused call changes nothing where the page is mapped alike beforehand. -/
theorem page_set_atomic_edge : ∃ p, PagingReach lowMemory bootPaging p ∧
    (apilogicPageSet lowMemory p edgePage 0x200000 0x31 0x2000).1 = false ∧
    AtomicOnError lowMemory p edgePage 0x200000 0x31 0x2000 := by
  obtain ⟨p, hp, ht, hlook⟩ := edge_mapped
  refine ⟨p, hp, (edge_refused hp ht 0x200000 (by decide)).1,
    (page_set_atomic lowMemory_holds (by decide) hp (ht.trans (by decide)) _ _ _ _).mpr
      (Or.inr ⟨edge_enough p ht, Or.inr fun k hk => ?_⟩)⟩
  have hone : clearPages edgePage 0x2000 = 1 := by decide
  obtain rfl : k = 0 := by omega
  rw [nthPage_start, nthPage_start, Paging.MapsTo, pcxGetTrans_eq, pcxGetFlags_eq, hlook]
  decide

/-- It maps the page anew where it is mapped otherwise. -/
theorem page_set_maps_before_error : ¬ ∀ (S : PageSource) (N : ℕ) (p0 p : Paging), S.Holds N →
    p0.pmmTaken + 258 ≤ N → PagingReach S p0 p → p.pmmTaken ≤ N →
    ∀ vbase pbase flags size, AtomicOnError S p vbase pbase flags size := by
  intro h
  obtain ⟨p, hp, ht, hlook⟩ := edge_mapped
  obtain ⟨hfalse, hout⟩ := edge_refused hp ht 0x400000 (by decide)
  have hatomic := h lowMemory 0x1FE00 bootPaging p lowMemory_holds (by decide) hp
    (ht.trans (by decide)) edgePage 0x400000 0x31 0x2000
  have htrans := (hatomic.unchanged hfalse edgePage).1
  have hmap := hout.mapped 0 (by decide) edgePage (by decide)
  rw [pcxGetTrans_eq, pcxGetTrans_eq, hmap, hlook] at htrans
  exact absurd htrans (by decide)

end Atomic
end Pinion64
