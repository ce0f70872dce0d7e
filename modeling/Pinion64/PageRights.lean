import Pinion64.PageApi

/-! What the processor finds in the page tables: how the flags of the tables on the way to a page
bear on the rights that it grants. -/
namespace Pinion64
open Radix

section Definitions

/-- The rights of user code. The kernel runs with write protection off, and is held to none. -/
structure Rights where
  user : Bool
  write : Bool
  deriving DecidableEq

/-- What is left of them behind an entry. -/
def Rights.pass (r : Rights) (e : Word) : Rights :=
  ⟨r.user && decide (e &&& pfUser ≠ 0), r.write && decide (e &&& pfWrite ≠ 0)⟩

/-- The frame that the processor reads from an entry that covers `h` levels: the bits from
12 + 9 * h to 51. -/
def hardwareFrame (h : ℕ) (e : Word) : Word := e &&& 0xFFFFFFFFFFFFF &&& ~~~offsetMask h

/-- Nothing enables no-execute, so that bit 63 of an entry is reserved. -/
def Reserved (e : Word) : Prop := e &&& pfNx ≠ 0

instance (e : Word) : Decidable (Reserved e) := by unfold Reserved; infer_instance

/-- An entry that ends the walk of the processor. -/
def mmuLeaf (addr : Word) (r : Rights) : ℕ × Word → Option (Word × Rights)
  | (h, e) =>
    if Reserved e then none else some (hardwareFrame h e + (addr &&& offsetMask h), r.pass e)

/-- The walk of the processor. A page fault is none; in the root table the bit of large pages is
reserved too. -/
def mmuFrom (p : Paging) (addr : Word) : ℕ → Ptr → Rights → Option (Word × Rights)
  | 0, _, _ => none
  | i+1, pt, r =>
    let e := p.mem pt (tableIndex addr i)
    if e &&& pfPres = 0 ∨ Reserved e ∨ i = 3 ∧ e &&& pfLarge ≠ 0 then none
    else if e &&& pfLarge ≠ 0 ∨ i = 0 then mmuLeaf addr r (i, e)
    else mmuFrom p addr i (hardwareFrame 0 e + base) (r.pass e)

/-- Where an access to an address goes, and what user code may do there. -/
def Paging.mmu (p : Paging) (addr : Word) : Option (Word × Rights) :=
  if Canonical addr then mmuFrom p addr 4 p.pcxRoot ⟨true, true⟩ else none

end Definitions

variable {S : PageSource} {p p' : Paging} {own own' : Ptr → Option (List (BitVec 9))}

/-- The path to a table starts in the lower half of the root table. -/
def LowerPath (w : List (BitVec 9)) : Prop := ∀ j ∈ w.getLast?, j.toNat < 256

theorem lowerPath_cons {i : BitVec 9} {w : List (BitVec 9)} (hw : w ≠ []) :
    LowerPath (i :: w) ↔ LowerPath w := by
  obtain ⟨j, v, rfl⟩ := List.exists_cons_of_ne_nil hw
  rw [LowerPath, LowerPath, List.getLast?_cons_cons]

section Invariant

/-- The entries that name tables give all rights away, but for the upper half of the root table,
which keeps user code out. -/
structure Linked (p : Paging) (own : Ptr → Option (List (BitVec 9))) : Prop where
  pass : ∀ q w i t, own q = some w → entryView (4 - (w.length + 1)) (p.mem q i) = .table t →
    ¬ Reserved (p.mem q i) ∧ p.mem q i &&& pfWrite ≠ 0
  user : ∀ q w i t, own q = some w → entryView (4 - (w.length + 1)) (p.mem q i) = .table t →
    LowerPath (i :: w) → p.mem q i &&& pfUser ≠ 0
  kernel : ∀ i : BitVec 9, 256 ≤ i.toNat →
    p.mem p.pcxRoot i &&& pfPres ≠ 0 ∧ p.mem p.pcxRoot i &&& pfUser = 0

/-- A flag of an entry can be read off its flags as a whole. -/
theorem flag_of_bits {e f m : Word} (he : e &&& pfBits = f) (hm : pfBits &&& m = m) :
    e &&& m = f &&& m := by
  rw [← he, BitVec.and_assoc, hm]

/-- An entry of the root table that is present names a table. -/
theorem TreeInv.root_view (h : TreeInv S p own) {i : BitVec 9}
    (hp : p.mem p.pcxRoot i &&& pfPres ≠ 0) :
    entryView 3 (p.mem p.pcxRoot i) = .table (frameOf (p.mem p.pcxRoot i) + base) := by
  rw [entryView, if_neg hp, if_neg]
  rintro (hl | h0)
  · exact absurd (h.large _ _ i h.forest.own_root (by simp) hp hl) (by simp)
  · cases h0

theorem linked_init (h : TreeInv S p own) (hb : InitTree p own) : Linked p own := by
  refine ⟨fun q w i t hq hv => ?_, fun q w i t hq hv hlow => ?_, fun i hi => ?_⟩
  · have hbits := hb.link q w i t hq hv
    rw [Reserved, flag_of_bits hbits (by decide), flag_of_bits hbits (by decide)]
    decide
  · exfalso
    have hzero : p.mem q i = 0 := by
      by_cases hw : w = []
      · subst hw
        obtain rfl := (h.forest.root q).mp hq
        exact hb.lower i (hlow i rfl)
      · refine hb.zero q w i hq hw ?_ ?_
        · rintro rfl
          exact absurd (hlow 511 rfl) (by decide)
        · intro he
          rw [he] at hlow
          exact absurd (hlow 511 rfl) (by decide)
    rw [hzero, zero_view] at hv
    cases hv
  · have hp := hb.upper i hi
    refine ⟨hp, ?_⟩
    rw [flag_of_bits (hb.link _ [] i _ h.forest.own_root (h.root_view hp)) (by decide)]
    decide

/-- Entries change to ones that pcx_set_frame enters for a table, or to ones that name none. -/
theorem Linked.change (h : Linked p own) (hroot : p'.pcxRoot = p.pcxRoot)
    (hslot : ∀ q w i t, own' q = some w → entryView (4 - (w.length + 1)) (p'.mem q i) = .table t →
      own q = some w ∧ p'.mem q i = p.mem q i ∨
        p'.mem q i &&& pfBits = pfValid ||| pfPres ||| pfWrite ||| pfUser)
    (hkernel : ∀ i : BitVec 9, 256 ≤ i.toNat → p'.mem p.pcxRoot i = p.mem p.pcxRoot i) :
    Linked p' own' := by
  refine ⟨fun q w i t hq hv => ?_, fun q w i t hq hv hlow => ?_, fun i hi => ?_⟩
  · rcases hslot q w i t hq hv with ⟨hq', he⟩ | hbits
    · rw [he] at hv ⊢
      exact h.pass q w i t hq' hv
    · rw [Reserved, flag_of_bits hbits (by decide), flag_of_bits hbits (by decide)]
      decide
  · rcases hslot q w i t hq hv with ⟨hq', he⟩ | hbits
    · rw [he] at hv ⊢
      exact h.user q w i t hq' hv hlow
    · rw [flag_of_bits hbits (by decide)]
      decide
  · rw [hroot, hkernel i hi]
    exact h.kernel i hi

theorem Linked.write_last (h : Linked p own) (ht : TreeInv S p own) {pt : Ptr}
    {w : List (BitVec 9)} {i : BitVec 9} {e : Word} (hpt : own pt = some w) (hw : w.length = 3) :
    Linked { p with mem := write p.mem pt i e } own := by
  have hroot : p.pcxRoot ≠ pt := by
    rintro rfl
    rw [ht.forest.own_root] at hpt
    obtain rfl := Option.some.inj hpt
    cases hw
  refine h.change rfl (fun q v j t hq hv => ?_) fun j _ => write_of_ne (Or.inl hroot)
  by_cases hs : q = pt ∧ j = i
  · obtain ⟨rfl, rfl⟩ := hs
    rw [hpt] at hq
    obtain rfl := Option.some.inj hq
    rw [hw, entryView] at hv
    split_ifs at hv with hp hl
    exact absurd (Or.inr rfl) hl
  · exact Or.inl ⟨hq, write_of_ne (not_and_or.mp hs)⟩

theorem Linked.enter (h : Linked p own) (ht : TreeInv S p own) {pt : Ptr} {w : List (BitVec 9)}
    (hpt : own pt = some w) (i : BitVec 9)
    (hd : p.mem pt i &&& pfPres = 0 → S.Delivers (p.pmmTaken + 1)) :
    Linked (enterTable S p pt i) (enterLabel S p pt i w own) := by
  unfold enterTable enterLabel
  split_ifs with hp
  · have hne := (hd hp p.pmmTaken (by omega)).1
    have hfresh := ht.next_fresh hne
    have hold : ∀ q j, q ≠ S.page p.pmmTaken → ¬ (q = pt ∧ j = i) →
        (newTable S p pt i).mem q j = p.mem q j := by
      intro q j hq hs
      exact (congrFun (link_of_ne hq) j).trans (write_of_ne (not_and_or.mp hs))
    refine h.change rfl (fun q v j t hq hv => ?_) fun j hj => hold _ j ?_ ?_
    · by_cases hqe : q = S.page p.pmmTaken
      · have hm : (newTable S p pt i).mem q = fun _ => 0 := by
          rw [hqe]
          exact link_self ..
        rw [hm, zero_view] at hv
        cases hv
      · rw [Function.update_of_ne hqe] at hq
        by_cases hs : q = pt ∧ j = i
        · obtain ⟨rfl, rfl⟩ := hs
          right
          have hm : (newTable S p q j).mem q j = _ :=
            (congrFun (link_of_ne hqe) j).trans (write_self ..)
          rw [hm, BitVec.or_assoc, BitVec.or_assoc, BitVec.or_assoc]
          exact entry_bits (S.aligned _) (S.window _ hne) (by decide)
        · exact Or.inl ⟨hq, hold q j hqe hs⟩
    · intro hr
      rw [← hr, ht.forest.own_root] at hfresh
      cases hfresh
    · rintro ⟨hr, rfl⟩
      exact (h.kernel j hj).1 (hr ▸ hp)
  · exact h

/-- The walk of pcx_set_frame keeps the tree and its links. -/
theorem pcxSetFrameFrom_linked {addr frame flags : Word} {n : ℕ} {pt : Ptr}
    {w : List (BitVec 9)} (ht : TreeInv S p own) (h : Linked p own) (hpt : own pt = some w)
    (hlen : w.length + n = 3)
    (hdel : S.Delivers (pcxSetFrameFrom S addr frame flags n pt p).2.pmmTaken) :
    ∃ own', TreeInv S (pcxSetFrameFrom S addr frame flags n pt p).2 own' ∧
      Linked (pcxSetFrameFrom S addr frame flags n pt p).2 own' := by
  induction n generalizing p own pt w with
  | zero => exact ⟨own, ht.write_last hpt hlen, h.write_last ht hpt hlen⟩
  | succ n ih =>
    have hd : p.mem pt (tableIndex addr (n+1)) &&& pfPres = 0 → S.Delivers (p.pmmTaken + 1) := by
      intro hp
      refine TreeInv.Delivers.mono hdel ?_
      simp only [pcxSetFrameFrom, if_pos hp]
      split_ifs
      · exact le_rfl
      · exact pcxSetFrameFrom_taken (newTable S p pt _) addr frame flags n _
    obtain ⟨ht', hpt', -, hpres⟩ := ht.enter hpt (by omega) (tableIndex addr (n+1)) hd
    have h' := h.enter ht hpt (tableIndex addr (n+1)) hd
    generalize hq : enterTable S p pt (tableIndex addr (n+1)) = q at ht' h' hpres
    generalize enterLabel S p pt (tableIndex addr (n+1)) w own = own' at ht' h' hpt'
    have hstep : pcxSetFrameFrom S addr frame flags (n+1) pt p =
        if q.mem pt (tableIndex addr (n+1)) &&& pfLarge ≠ 0 then (1, q)
        else pcxSetFrameFrom S addr frame flags n
          (frameOf (q.mem pt (tableIndex addr (n+1))) + base) q := by
      rw [← hq]
      rfl
    rw [hstep] at hdel ⊢
    split_ifs at hdel ⊢ with hlarge
    · exact ⟨own', ht', h'⟩
    · have hchild := ht'.forest.child pt w (tableIndex addr (n+1)) _ hpt' (by
        rw [entryView, if_neg hpres, if_neg]
        simp only [not_or]
        exact ⟨hlarge, by omega⟩)
      exact ih ht' h' hchild (by simp; omega) hdel

end Invariant

section Walk

/-- The processor goes to the table that the kernel has entered. -/
theorem hardwareFrame_table {e : Word} (he : (frameOf e).toNat < 2 ^ 52) :
    hardwareFrame 0 e = frameOf e := by
  have hmask : (0xFFFFFFFFFFFFF : Word) &&& ~~~offsetMask 0 = ~~~pfBits &&& 0xFFFFFFFFFFFFF := by
    decide
  rw [hardwareFrame, BitVec.and_assoc, hmask, ← BitVec.and_assoc, ← frameOf]
  apply BitVec.eq_of_toNat_eq
  rw [BitVec.toNat_and]
  exact (Nat.and_two_pow_sub_one_eq_mod _ 52).trans (Nat.mod_eq_of_lt he)

theorem TreeInv.table_frame (h : TreeInv S p own) (hd : S.Delivers p.pmmTaken) {q : Ptr}
    {w : List (BitVec 9)} (hq : own q = some w) : (q - base).toNat < 2 ^ 29 := by
  obtain ⟨k, hk, rfl⟩ := h.taken q w hq
  obtain ⟨hne, hlt⟩ := hd k hk
  have hs : (S.page k - base).toNat = (S.page k).toNat - base.toNat :=
    BitVec.toNat_sub_of_le (S.window k hne)
  omega

/-- The processor goes where the kernel goes. -/
theorem TreeInv.hardware_table (h : TreeInv S p own) (hd : S.Delivers p.pmmTaken) {e : Word}
    {w : List (BitVec 9)} (hq : own (frameOf e + base) = some w) :
    hardwareFrame 0 e = frameOf e := by
  have hlt := h.table_frame hd hq
  rw [BitVec.add_sub_cancel] at hlt
  exact hardwareFrame_table (by omega)

/-- Behind the first table, an entry that names a table leaves the rights alone. -/
theorem Linked.pass_eq (h : Linked p own) {q t : Ptr} {w : List (BitVec 9)} {i : BitVec 9}
    {r : Rights} (hq : own q = some w)
    (hv : entryView (4 - (w.length + 1)) (p.mem q i) = .table t) (hw : r.write = true)
    (hu : r.user = true → LowerPath (i :: w)) : r.pass (p.mem q i) = r := by
  have hwrite := (h.pass q w i t hq hv).2
  obtain ⟨user, write⟩ := r
  obtain rfl : write = true := hw
  cases user with
  | false => rw [Rights.pass, decide_eq_true hwrite, Bool.false_and, Bool.true_and]
  | true =>
    rw [Rights.pass, decide_eq_true hwrite, decide_eq_true (h.user q w i t hq hv (hu rfl)),
      Bool.true_and]

/-- The walk from a table behind the root ends like the one of the kernel. -/
theorem mmuFrom_eq (ht : TreeInv S p own) (h : Linked p own) (hd : S.Delivers p.pmmTaken)
    {addr : Word} {n : ℕ} {pt : Ptr} {w : List (BitVec 9)} {r : Rights} (hpt : own pt = some w)
    (hlen : w.length + n = 4) (hne : w ≠ []) (hw : r.write = true)
    (hu : r.user = true → LowerPath w) :
    mmuFrom p addr n pt r = (find entryView p.mem (pathFrom addr n) pt).bind (mmuLeaf addr r) := by
  induction n generalizing pt w with
  | zero => rfl
  | succ n ih =>
    have hn : n ≠ 3 := by
      rintro rfl
      exact hne (List.length_eq_zero_iff.mp (by omega))
    have hdepth : 4 - (w.length + 1) = n := by omega
    rw [mmuFrom, pathFrom, find, pathFrom_length]
    generalize he : p.mem pt (tableIndex addr n) = e
    have hgo : e &&& pfPres ≠ 0 → ¬ Reserved e →
        ¬ (e &&& pfPres = 0 ∨ Reserved e ∨ n = 3 ∧ e &&& pfLarge ≠ 0) := by
      rintro hp hres (hc | hc | hc)
      · exact hp hc
      · exact hres hc
      · exact hn hc.1
    rcases hv : entryView n e with - | - | t
    · unfold entryView at hv
      split_ifs at hv with hp
      exact if_pos (Or.inl hp)
    · unfold entryView at hv
      split_ifs at hv with hp hl
      simp only [Option.bind_some]
      by_cases hres : Reserved e
      · rw [if_pos (Or.inr (Or.inl hres)), mmuLeaf, if_pos hres]
      · rw [if_neg (hgo hp hres), if_pos hl]
    · have hview : entryView (4 - (w.length + 1)) (p.mem pt (tableIndex addr n)) = .table t := by
        rw [hdepth, he, hv]
      have hchild := ht.forest.child pt w _ t hpt hview
      have hpass := h.pass_eq hpt hview hw fun hr => (lowerPath_cons hne).mpr (hu hr)
      have hres := (h.pass pt w _ t hpt hview).1
      rw [he] at hpass hres
      unfold entryView at hv
      split_ifs at hv with hp hl
      obtain rfl := Slot.table.inj hv
      simp only [if_neg (hgo hp hres), if_neg hl, hpass, ht.hardware_table hd hchild]
      exact ih hchild (by simp; omega) (by simp) fun hr => (lowerPath_cons hne).mpr (hu hr)

theorem canonical_iff (x : Ptr) : Canonical x ↔ x.toNat < 2 ^ 47 ∨ 2 ^ 64 - 2 ^ 47 ≤ x.toNat := by
  have hx := x.isLt
  have hs := BitVec.toNat_signExtend (x.setWidth 48) (v := 64)
  rw [Canonical, ← BitVec.toNat_inj, hs, BitVec.msb_eq_decide]
  simp only [BitVec.toNat_setWidth]
  split_ifs with h
  · have := of_decide_eq_true h
    omega
  · simp only [decide_eq_true_eq] at h
    omega

theorem lower_iff {addr : Word} (hc : Canonical addr) :
    (tableIndex addr 3).toNat < 256 ↔ addr.toNat < 2 ^ 47 := by
  rw [tableIndex, BitVec.extractLsb'_toNat, Nat.shiftRight_eq_div_pow]
  rcases (canonical_iff addr).mp hc with hc | hc <;> omega

/-- The processor finds the page that the kernel finds. User code has the rights of its entry, if
the page is in the lower half. -/
theorem mmu_eq (ht : TreeInv S p own) (h : Linked p own) (hd : S.Delivers p.pmmTaken) {addr : Word}
    (hc : Canonical addr) :
    p.mmu addr = (p.lookup addr).bind (mmuLeaf addr ⟨decide (addr.toNat < 2 ^ 47), true⟩) := by
  rw [Paging.mmu, if_pos hc, Paging.lookup, mmuFrom, pathFrom, find, pathFrom_length]
  generalize he : p.mem p.pcxRoot (tableIndex addr 3) = e
  by_cases hp : e &&& pfPres = 0
  · rw [if_pos (Or.inl hp), entryView, if_pos hp]
    rfl
  · have hview := ht.root_view (he.symm ▸ hp)
    have hroot := ht.forest.own_root
    have hchild := ht.forest.child _ _ _ _ hroot hview
    have hlink := h.pass _ [] _ _ hroot hview
    have huser := h.user _ [] _ _ hroot hview
    have hkernel := h.kernel (tableIndex addr 3)
    rw [he] at hview hchild hlink huser hkernel
    have hl : ¬ (e &&& pfLarge ≠ 0 ∨ 3 = 0) := by
      intro hl
      rw [entryView, if_neg hp, if_pos hl] at hview
      cases hview
    have hgo : ¬ (e &&& pfPres = 0 ∨ Reserved e ∨ 3 = 3 ∧ e &&& pfLarge ≠ 0) := by
      rintro (hc | hc | hc)
      · exact hp hc
      · exact hlink.1 hc
      · exact hl (Or.inl hc.2)
    have hpass : (⟨true, true⟩ : Rights).pass e = ⟨decide (addr.toNat < 2 ^ 47), true⟩ := by
      rw [Rights.pass, decide_eq_true hlink.2, Bool.true_and, Bool.true_and]
      by_cases hlow : addr.toNat < 2 ^ 47
      · rw [decide_eq_true hlow, decide_eq_true]
        refine huser fun j hj => ?_
        obtain rfl : tableIndex addr 3 = j := by simpa using hj
        exact (lower_iff hc).mpr hlow
      · rw [decide_eq_false hlow, decide_eq_false]
        exact not_not.mpr (hkernel (Nat.le_of_not_lt (mt (lower_iff hc).mp hlow))).2
    rw [if_neg hgo, if_neg hl, hpass, hview, ht.hardware_table hd hchild]
    refine mmuFrom_eq ht h hd hchild rfl (by simp) rfl fun hlow j hj => ?_
    obtain rfl : tableIndex addr 3 = j := by simpa using hj
    exact (lower_iff hc).mpr (of_decide_eq_true hlow)

end Walk
end Pinion64
