import Pinion64.PageTree

/-! What pcx_init and pcx_set_frame do to the tree of page tables and to every lookup. -/
namespace Pinion64
open Radix

variable {S : PageSource} {p : Paging} {own : Ptr → Option (List (BitVec 9))}

/-- What a lookup finds in a last-level slot that holds `e`. -/
def leafOf (e : Word) : Option (ℕ × Word) := if e &&& pfPres = 0 then none else some (0, e)

theorem find_last (mem : Ptr → BitVec 9 → Word) (i : BitVec 9) (pt : Ptr) :
    find entryView mem [i] pt = leafOf (mem pt i) := by
  simp only [find, entryView, leafOf, List.length_nil, or_true, if_true]
  split_ifs <;> rfl

theorem zero_view (n : ℕ) : entryView n 0 = .empty := by simp [entryView]

namespace TreeInv

/-- A page that has not been delivered yet is no table of the tree. -/
theorem next_fresh (h : TreeInv S p own) (hn : S.page p.pmmTaken ≠ 0) :
    own (S.page p.pmmTaken) = none := by
  cases ho : own (S.page p.pmmTaken) with
  | none => rfl
  | some w =>
    obtain ⟨k, hk, he⟩ := h.taken _ _ ho
    have := S.fresh k p.pmmTaken he (he ▸ hn)
    omega

/-- No table hangs below the one that maps the window. -/
theorem window_last (h : TreeInv S p own) {q : Ptr} {i : BitVec 9} :
    own q ≠ some [i, 511, 511] := by
  intro hq
  obtain ⟨t, ht, hv⟩ := h.forest.parent q _ _ hq
  obtain ⟨r, hr, hm⟩ := h.window
  obtain rfl := h.forest.label_injective ht hr
  rw [hm, pinionPt2_view] at hv
  contradiction

/-- Writing a last-level entry. -/
theorem write_last (h : TreeInv S p own) {pt : Ptr} {w : List (BitVec 9)} {i : BitVec 9}
    {e : Word} (hpt : own pt = some w) (hw : w.length = 3) :
    TreeInv S { p with mem := write p.mem pt i e } own where
  forest := h.forest.write_leaf hpt
    (fun r => by simp [entryView, hw]; split_ifs <;> simp)
    (fun r => by simp [entryView, hw]; split_ifs <;> simp)
  taken := h.taken
  window := by
    obtain ⟨q, hq, hm⟩ := h.window
    refine ⟨q, hq, ?_⟩
    funext j
    rw [← hm]
    apply write_of_ne
    left
    rintro rfl
    rw [hpt] at hq
    simp [Option.some.inj hq] at hw
  large q v j hq hv hp hl := by
    have hne : q ≠ pt := by
      rintro rfl
      rw [hpt] at hq
      obtain rfl := Option.some.inj hq
      omega
    simp only [write_of_ne (Or.inl hne)] at hp hl
    exact h.large q v j hq hv hp hl

theorem lookup_write_last (h : TreeInv S p own) {pt : Ptr} {w : List (BitVec 9)} {addr e : Word}
    (hpt : own pt = some w) (hw : w.length = 3)
    (hpath : pathFrom addr 4 = w.reverse ++ pathFrom addr 1) (b : Word) :
    Paging.lookup { p with mem := write p.mem pt (tableIndex addr 0) e } b =
      if pathFrom b 4 = pathFrom addr 4 then leafOf e else p.lookup b := by
  have h' : TreeInv S { p with mem := write p.mem pt (tableIndex addr 0) e } own :=
    h.write_last hpt hw
  split_ifs with hb
  · rw [Paging.lookup, hb, hpath]
    rw [show p.pcxRoot = ({ p with mem := write p.mem pt (tableIndex addr 0) e } : Paging).pcxRoot
      from rfl, h'.forest.find_label hpt (by simp [hw])]
    simp only [pathFrom, find_last, write_self]
  · rw [Paging.lookup, h.forest.find_write h.forest.own_root hpt (by simp)]
    · rfl
    · intro hs
      apply hb
      have hl : (tableIndex addr 0 :: w).length = ((pathFrom b 4).reverse ++ []).length := by
        simp [hw]
      have he := hs.eq_of_length hl
      rw [List.append_nil] at he
      have hr := congrArg List.reverse he
      rw [List.reverse_reverse, List.reverse_cons] at hr
      rw [hpath, ← hr]
      rfl

/-- The flags with which pcx_set_frame enters a new table. -/
theorem view_link {q : Ptr} {h : ℕ} (hh : h ≠ 0) (hq : q.toNat % 4096 = 0)
    (hb : base.toNat ≤ q.toNat) :
    entryView h ((q - 0xFFFFFFFFC0000000) ||| pfValid ||| pfPres ||| pfWrite ||| pfUser) =
      .table q := by
  have := entryView_table (f := pfValid ||| pfPres ||| pfWrite ||| pfUser) hq hb (by decide)
    (by decide) (by decide) hh
  simpa [BitVec.or_assoc, base] using this

theorem Delivers.mono {m n : ℕ} (h : S.Delivers n) (hm : m ≤ n) : S.Delivers m :=
  fun k hk => h k (by omega)

/-- Entering a fresh table in an empty slot keeps the tree and changes no lookup. -/
theorem newTable_spec (h : TreeInv S p own) {pt : Ptr} {w : List (BitVec 9)} {i : BitVec 9}
    (hpt : own pt = some w) (hw : w.length < 3) (hi : p.mem pt i &&& pfPres = 0)
    (hdel : S.Delivers (p.pmmTaken + 1)) :
    TreeInv S (newTable S p pt i) (Function.update own (S.page p.pmmTaken) (some (i :: w))) ∧
      ∀ b, (newTable S p pt i).lookup b = p.lookup b := by
  obtain ⟨hne, -⟩ := hdel p.pmmTaken (by omega)
  have hq := h.next_fresh hne
  have hv := view_link (h := 4 - (w.length + 1)) (by omega) (S.aligned p.pmmTaken)
    (S.window _ hne)
  have hempty : entryView (4 - (w.length + 1)) (p.mem pt i) = .empty := by
    rw [entryView, if_pos hi]
  have hroot := h.forest.own_root
  refine ⟨⟨?_, ?_, ?_, ?_⟩, ?_⟩
  · exact h.forest.link_forest hpt (by omega) hq hempty hv fun n j t => by
      rw [zero_view]
      simp
  · intro q v ho
    by_cases hqe : q = S.page p.pmmTaken
    · exact ⟨p.pmmTaken, by simp [newTable, pgeAlloc], hqe.symm⟩
    · rw [Function.update_of_ne hqe] at ho
      obtain ⟨k, hk, he⟩ := h.taken q v ho
      exact ⟨k, by simp [newTable, pgeAlloc]; omega, he⟩
  · obtain ⟨q, ho, hm⟩ := h.window
    have hqe : q ≠ S.page p.pmmTaken := by
      rintro rfl
      rw [hq] at ho
      contradiction
    have hqp : q ≠ pt := by
      rintro rfl
      rw [hm, pinionPt2_view] at hempty
      contradiction
    refine ⟨q, by rwa [Function.update_of_ne hqe], ?_⟩
    rw [← hm]
    funext j
    exact (congrFun (link_of_ne hqe) j).trans (write_of_ne (Or.inl hqp))
  · intro q v j ho hv3 hp hl
    by_cases hqe : q = S.page p.pmmTaken
    · subst hqe
      simp [newTable, pgeAlloc] at hp
    · rw [Function.update_of_ne hqe] at ho
      have hm : (newTable S p pt i).mem q = write p.mem pt i _ q := link_of_ne hqe
      by_cases hs : q = pt ∧ j = i
      · obtain ⟨rfl, rfl⟩ := hs
        rw [hm, write_self] at hl hp
        rw [entryView, if_neg hp, if_pos (Or.inl hl)] at hv
        contradiction
      · rw [hm, write_of_ne (not_and_or.mp hs)] at hp hl
        exact h.large q v j ho hv3 hp hl
  · intro b
    exact h.forest.find_link hpt hq hv hempty (fun n _ => zero_view n) hroot (by simp)

end TreeInv

/-- What the loop of pcx_set_frame does to a slot before it goes down. -/
def enterTable (S : PageSource) (p : Paging) (pt : Ptr) (i : BitVec 9) : Paging :=
  if p.mem pt i &&& pfPres = 0 then newTable S p pt i else p

def enterLabel (S : PageSource) (p : Paging) (pt : Ptr) (i : BitVec 9) (w : List (BitVec 9))
    (own : Ptr → Option (List (BitVec 9))) : Ptr → Option (List (BitVec 9)) :=
  if p.mem pt i &&& pfPres = 0 then Function.update own (S.page p.pmmTaken) (some (i :: w))
  else own

/-- Afterwards the slot is present, and all lookups are as before. -/
theorem TreeInv.enter (h : TreeInv S p own) {pt : Ptr} {w : List (BitVec 9)}
    (hpt : own pt = some w) (hw : w.length < 3) (i : BitVec 9)
    (hd : p.mem pt i &&& pfPres = 0 → S.Delivers (p.pmmTaken + 1)) :
    TreeInv S (enterTable S p pt i) (enterLabel S p pt i w own) ∧
      enterLabel S p pt i w own pt = some w ∧
      (∀ b, (enterTable S p pt i).lookup b = p.lookup b) ∧
      (enterTable S p pt i).mem pt i &&& pfPres ≠ 0 := by
  unfold enterTable enterLabel
  split_ifs with hp
  · obtain ⟨hi, hl⟩ := h.newTable_spec hpt hw hp (hd hp)
    have hne : pt ≠ S.page p.pmmTaken := by
      intro he
      have := h.next_fresh (hd hp p.pmmTaken (by omega)).1
      rw [← he, hpt] at this
      contradiction
    refine ⟨hi, by rwa [Function.update_of_ne hne], hl, ?_⟩
    have hm : (newTable S p pt i).mem pt i = _ :=
      (congrFun (link_of_ne hne) _).trans (write_self _ _ _ _)
    rw [hm]
    intro hz
    have hb := congrArg (fun x : Word => x.getLsbD 0) hz
    simp [pfPres, pfValid, pfWrite, pfUser] at hb
  · exact ⟨h, hpt, fun _ => rfl, hp⟩

/-- Outcome of a pcx_set_frame for `addr` from `p`: it succeeds exactly outside the window,
and then the lookups through the page of `addr` find the new entry; all others are kept. -/
structure Edited (S : PageSource) (p : Paging) (addr e : Word) (r : ℕ × Paging) : Prop where
  inv : ∃ own, TreeInv S r.2 own
  ret : r.1 = if InWindow addr then 1 else 0
  lookup : ∀ b, r.2.lookup b =
    if pathFrom b 4 = pathFrom addr 4 ∧ ¬ InWindow addr then leafOf e else p.lookup b

theorem pcxSetFrameFrom_taken (p : Paging) (addr frame flags : Word) (n : ℕ) (pt : Ptr) :
    p.pmmTaken ≤ (pcxSetFrameFrom S addr frame flags n pt p).2.pmmTaken := by
  induction n generalizing p pt with
  | zero => exact le_rfl
  | succ n ih =>
    simp only [pcxSetFrameFrom]
    have hle : p.pmmTaken ≤ (if p.mem pt (tableIndex addr (n+1)) &&& pfPres = 0 then
        newTable S p pt (tableIndex addr (n+1)) else p).pmmTaken := by
      split_ifs
      · exact Nat.le_succ _
      · exact le_rfl
    split_ifs at hle ⊢
    all_goals first
      | exact hle
      | exact hle.trans (ih _ _)

theorem pcxSetFrameFrom_taken_le (p : Paging) (addr frame flags : Word) (n : ℕ) (pt : Ptr) :
    (pcxSetFrameFrom S addr frame flags n pt p).2.pmmTaken ≤ p.pmmTaken + n := by
  induction n generalizing p pt with
  | zero => exact le_rfl
  | succ n ih =>
    simp only [pcxSetFrameFrom]
    have hle : (if p.mem pt (tableIndex addr (n+1)) &&& pfPres = 0 then
        newTable S p pt (tableIndex addr (n+1)) else p).pmmTaken ≤ p.pmmTaken + 1 := by
      split_ifs
      · exact le_rfl
      · exact Nat.le_succ _
    split_ifs at hle ⊢
    all_goals first
      | exact hle.trans (by omega)
      | exact (ih _ _).trans (by omega)

/-- The walk of pcx_set_frame from a table with `n` levels below it. -/
theorem pcxSetFrameFrom_edited {addr frame flags : Word} {n : ℕ} {pt : Ptr}
    {w : List (BitVec 9)} (h : TreeInv S p own) (hpt : own pt = some w) (hlen : w.length + n = 3)
    (hpath : pathFrom addr 4 = w.reverse ++ pathFrom addr (n+1))
    (hdel : S.Delivers (pcxSetFrameFrom S addr frame flags n pt p).2.pmmTaken) :
    Edited S p addr (frame ||| flags) (pcxSetFrameFrom S addr frame flags n pt p) := by
  induction n generalizing p own pt w with
  | zero =>
    have hwin : ¬ InWindow addr := by
      rintro ⟨h3, h2⟩
      obtain ⟨a, b, c, rfl⟩ := List.length_eq_three.mp (by simpa using hlen)
      simp only [pathFrom, List.reverse_cons, List.reverse_nil, List.nil_append,
        List.cons_append, List.cons.injEq, h3, h2] at hpath
      obtain ⟨rfl, rfl, -⟩ := hpath
      exact h.window_last hpt
    refine ⟨⟨own, h.write_last hpt hlen⟩, by simp [hwin, pcxSetFrameFrom], fun b => ?_⟩
    rw [pcxSetFrameFrom, h.lookup_write_last hpt hlen hpath]
    simp [hwin]
  | succ n ih =>
    have hidx : pathFrom addr (n+2) = tableIndex addr (n+1) :: pathFrom addr (n+1) := rfl
    have hd : p.mem pt (tableIndex addr (n+1)) &&& pfPres = 0 → S.Delivers (p.pmmTaken + 1) := by
      intro hp
      refine TreeInv.Delivers.mono hdel ?_
      simp only [pcxSetFrameFrom, if_pos hp]
      split_ifs
      · exact le_rfl
      · exact pcxSetFrameFrom_taken (newTable S p pt _) addr frame flags n _
    obtain ⟨h', hpt', hlook, hpres⟩ := h.enter hpt (by omega) (tableIndex addr (n+1)) hd
    generalize hq : enterTable S p pt (tableIndex addr (n+1)) = q at h' hlook hpres
    generalize enterLabel S p pt (tableIndex addr (n+1)) w own = own' at h' hpt'
    have hstep : pcxSetFrameFrom S addr frame flags (n+1) pt p =
        if q.mem pt (tableIndex addr (n+1)) &&& pfLarge ≠ 0 then (1, q)
        else pcxSetFrameFrom S addr frame flags n
          (frameOf (q.mem pt (tableIndex addr (n+1))) + base) q := by
      rw [← hq]
      rfl
    rw [hstep] at hdel ⊢
    split_ifs at hdel ⊢ with hlarge
    · obtain rfl := h'.large pt w _ hpt' (by omega) hpres hlarge
      have hwin : InWindow addr := by
        simp only [pathFrom, List.reverse_cons, List.reverse_nil, List.nil_append,
          List.cons_append, List.cons.injEq] at hpath
        exact ⟨hpath.1, hpath.2.1⟩
      exact ⟨⟨own', h'⟩, by simp [hwin], fun b => by simp [hwin, hlook]⟩
    · have hchild := h'.forest.child pt w (tableIndex addr (n+1)) _ hpt' (by
        rw [entryView, if_neg hpres, if_neg]
        simp only [not_or]
        exact ⟨hlarge, by omega⟩)
      have hed := ih h' hchild (by simp; omega) (by simpa [hidx] using hpath) hdel
      exact ⟨hed.inv, hed.ret, fun b => by rw [hed.lookup, hlook]⟩

/-- The tree after the first `n` upper slots of the root have been filled with empty tables. -/
structure UpperInv (S : PageSource) (n : ℕ) (p : Paging)
    (own : Ptr → Option (List (BitVec 9))) : Prop where
  forest : Forest entryView 4 p.mem p.pcxRoot own
  taken : ∀ q w, own q = some w → ∃ k < p.pmmTaken, S.page k = q
  rest : ∀ i : BitVec 9, 256+n ≤ i.toNat → p.mem p.pcxRoot i = 0
  small : ∀ i, p.mem p.pcxRoot i &&& pfLarge = 0
  labels : ∀ q w, own q = some w → w = [] ∨ (∃ i, w = [i]) ∧ p.mem q = fun _ => 0
  covers : ∀ i : BitVec 9, 256 ≤ i.toNat → i.toNat < 256+n → ∃ q, own q = some [i]
  entry : ∀ q i, own q = some [i] → p.mem p.pcxRoot i = (q - base) ||| pfPres ||| pfWrite

theorem upperInv_zero (root : Ptr) (mem : Ptr → BitVec 9 → Word) (t k : ℕ) (hk : k < t)
    (hr : S.page k = root) :
    UpperInv S 0 ⟨Function.update mem root fun _ => 0, root, t⟩
      fun q => if q = root then some [] else none where
  forest := by
    refine ⟨fun q => by simp, fun q w h => ?_, fun q w i r h hv => ?_, fun q w i h => ?_⟩
    · split_ifs at h
      simp [← Option.some.inj h]
    · split_ifs at h with hq
      subst hq
      simp [entryView] at hv
    · split_ifs at h
      simp at h
  taken q w h := by
    split_ifs at h with hq
    exact ⟨k, hk, by rw [hr, hq]⟩
  rest i _ := by simp
  small i := by simp
  labels q w h := by
    split_ifs at h
    exact Or.inl (Option.some.inj h).symm
  covers i h h' := by omega
  entry q i h := by
    split_ifs at h
    simp at h

theorem upperInv_succ {n : ℕ} (hn : n < 256) (h : UpperInv S n p own)
    (hne : S.page p.pmmTaken ≠ 0) :
    ∃ own', UpperInv S (n+1)
      ⟨link p.mem p.pcxRoot (BitVec.ofNat 9 (256+n))
        ((S.page p.pmmTaken - base) ||| pfPres ||| pfWrite) (S.page p.pmmTaken) fun _ => 0,
        p.pcxRoot, p.pmmTaken + 1⟩ own' := by
  have hi : (BitVec.ofNat 9 (256+n)).toNat = 256+n := by
    rw [BitVec.toNat_ofNat]
    omega
  have hq : own (S.page p.pmmTaken) = none := by
    cases ho : own (S.page p.pmmTaken) with
    | none => rfl
    | some w =>
      obtain ⟨k, hk, he⟩ := h.taken _ _ ho
      have := S.fresh k p.pmmTaken he (he ▸ hne)
      omega
  have hroot := h.forest.own_root
  have hrq : p.pcxRoot ≠ S.page p.pmmTaken := by
    intro he
    rw [he, hq] at hroot
    contradiction
  have hv : entryView 3 ((S.page p.pmmTaken - base) ||| pfPres ||| pfWrite) =
      .table (S.page p.pmmTaken) := by
    have := entryView_table (h := 3) (f := pfPres ||| pfWrite) (S.aligned p.pmmTaken)
      (S.window _ hne) (by decide) (by decide) (by decide) (by decide)
    simpa [BitVec.or_assoc] using this
  have hempty : entryView 3 (p.mem p.pcxRoot (BitVec.ofNat 9 (256+n))) = .empty := by
    rw [h.rest _ (by omega), zero_view]
  refine ⟨Function.update own (S.page p.pmmTaken) (some [BitVec.ofNat 9 (256+n)]), ?_⟩
  refine ⟨?_, fun q w ho => ?_, fun i hle => ?_, fun i => ?_, fun q w ho => ?_, fun i h1 h2 => ?_,
    fun q i ho => ?_⟩
  · exact h.forest.link_forest hroot (by simp) hq hempty hv fun m j t => by
      rw [zero_view]
      simp
  · by_cases hqe : q = S.page p.pmmTaken
    · exact ⟨p.pmmTaken, by simp, hqe.symm⟩
    · rw [Function.update_of_ne hqe] at ho
      obtain ⟨k, hk, he⟩ := h.taken q w ho
      exact ⟨k, by simp; omega, he⟩
  · simp only [link_of_ne hrq]
    rw [write_of_ne, h.rest i (by omega)]
    right
    rintro rfl
    omega
  · simp only [link_of_ne hrq]
    by_cases he : i = BitVec.ofNat 9 (256+n)
    · subst he
      rw [write_self]
      by_contra hl
      have : entryView 3 ((S.page p.pmmTaken - base) ||| pfPres ||| pfWrite) ≠
          .table (S.page p.pmmTaken) := by
        unfold entryView
        split_ifs
        · simp
        · simp
        · tauto
      exact this hv
    · rw [write_of_ne (Or.inr he)]
      exact h.small i
  · by_cases hqe : q = S.page p.pmmTaken
    · subst hqe
      rw [Function.update_self] at ho
      exact Or.inr ⟨⟨_, (Option.some.inj ho).symm⟩, link_self _ _ _ _ _ _⟩
    · rw [Function.update_of_ne hqe] at ho
      rcases h.labels q w ho with hw | ⟨⟨j, hw⟩, hm⟩
      · exact Or.inl hw
      · refine Or.inr ⟨⟨j, hw⟩, ?_⟩
        have hqr : q ≠ p.pcxRoot := by
          rintro rfl
          rw [hroot] at ho
          have := Option.some.inj ho
          simp [hw] at this
        simp only [link_of_ne hqe]
        funext k
        rw [write_of_ne (Or.inl hqr), hm]
  · by_cases he : i.toNat = 256+n
    · refine ⟨S.page p.pmmTaken, ?_⟩
      rw [Function.update_self]
      congr 2
      exact BitVec.eq_of_toNat_eq (by omega)
    · obtain ⟨q, ho⟩ := h.covers i h1 (by omega)
      refine ⟨q, ?_⟩
      rwa [Function.update_of_ne]
      rintro rfl
      rw [hq] at ho
      contradiction
  · simp only [link_of_ne hrq]
    by_cases hqe : q = S.page p.pmmTaken
    · subst hqe
      rw [Function.update_self] at ho
      obtain rfl : BitVec.ofNat 9 (256+n) = i := by simpa using ho
      rw [write_self]
    · rw [Function.update_of_ne hqe] at ho
      rw [write_of_ne, h.entry q i ho]
      right
      rintro rfl
      obtain ⟨t, ht, hv'⟩ := h.forest.parent q [] _ ho
      rw [(h.forest.root t).mp ht] at hv'
      exact absurd (hempty.symm.trans hv') (by simp)

theorem pcxInitUpper_frame (p : Paging) (n : ℕ) :
    (pcxInitUpper S n p).pcxRoot = p.pcxRoot ∧
      (pcxInitUpper S n p).pmmTaken = p.pmmTaken + n := by
  induction n with
  | zero => exact ⟨rfl, rfl⟩
  | succ n ih =>
    simp only [pcxInitUpper, pgeAlloc, ih, true_and]
    omega

theorem pcxInitUpper_inv {n : ℕ} (hn : n ≤ 256) (h : UpperInv S 0 p own)
    (hd : ∀ k < p.pmmTaken + n, S.page k ≠ 0) :
    ∃ own', UpperInv S n (pcxInitUpper S n p) own' := by
  induction n with
  | zero => exact ⟨own, h⟩
  | succ n ih =>
    obtain ⟨own', ho⟩ := ih (by omega) fun k hk => hd k (by omega)
    obtain ⟨hr, ht⟩ := pcxInitUpper_frame (S := S) p n
    exact upperInv_succ (by omega) ho (hd _ (by omega))

/-- The address arithmetic by which pcx_init finds the table it entered last. -/
theorem entry_address {q : Ptr} (hq : q.toNat % 4096 = 0) (hb : base.toNat ≤ q.toNat) :
    (((q - base) ||| pfPres ||| pfWrite) + base) &&& ~~~0xFFF = q := by
  have low : ∀ x : Word, x.toNat % 4096 = 0 → x &&& 0xFFF = 0 := by
    intro x hx
    apply BitVec.eq_of_toNat_eq
    rw [BitVec.toNat_and]
    exact (Nat.and_two_pow_sub_one_eq_mod x.toNat 12).trans hx
  have low3 : ∀ x : Word, x.toNat % 4096 = 0 → x &&& 3 = 0 := by
    intro x hx
    rw [show (3 : Word) = 0xFFF &&& 3 by decide, ← BitVec.and_assoc, low x hx]
    simp
  have hs : (q - base).toNat = q.toNat - base.toNat := BitVec.toNat_sub_of_le hb
  have hx : (q - base).toNat % 4096 = 0 := by
    rw [hs]
    simp only [base, BitVec.reduceToNat] at hb ⊢
    omega
  have hor : (q - base) ||| pfPres ||| pfWrite = (q - base) + 3 := by
    rw [BitVec.or_assoc, show pfPres ||| pfWrite = 3 by decide,
      BitVec.add_eq_or_of_and_eq_zero _ _ (low3 _ hx)]
  have hq3 : (q - base) + 3 + base = q ||| 3 := by
    rw [BitVec.add_assoc, BitVec.add_comm 3 base, ← BitVec.add_assoc, BitVec.sub_add_cancel,
      BitVec.add_eq_or_of_and_eq_zero _ _ (low3 _ hq)]
  have hkeep : q &&& ~~~0xFFF = q := by
    have hall : q &&& (0xFFF ||| ~~~0xFFF) = q := by
      rw [show (0xFFF : Word) ||| ~~~0xFFF = BitVec.allOnes 64 by decide, BitVec.and_allOnes]
    rw [BitVec.and_or_distrib_left, low q hq] at hall
    simpa using hall
  rw [hor, hq3, BitVec.and_comm, BitVec.and_or_distrib_left, BitVec.and_comm _ q, hkeep,
    show ~~~(0xFFF : Word) &&& 3 = 0 by decide]
  simp

/-- The lower half of the root table is not touched. -/
theorem pcxInitUpper_lower (p : Paging) (n : ℕ) (hfresh : ∀ k, S.page (p.pmmTaken + k) ≠ p.pcxRoot)
    {i : BitVec 9} (hi : i.toNat < 256) (hn : n ≤ 256) :
    (pcxInitUpper S n p).mem p.pcxRoot i = p.mem p.pcxRoot i := by
  induction n with
  | zero => rfl
  | succ n ih =>
    obtain ⟨hr, ht⟩ := pcxInitUpper_frame (S := S) p n
    have hne : i ≠ BitVec.ofNat 9 (256+n) := by
      rintro rfl
      rw [BitVec.toNat_ofNat] at hi
      omega
    simp only [pcxInitUpper, pgeAlloc, hr, ht, link_of_ne (hfresh n).symm,
      write_of_ne (Or.inr hne)]
    exact ih (by omega)

/-- The flags of an entry that names a table. -/
theorem entry_bits {q : Ptr} {f : Word} (hq : q.toNat % 4096 = 0) (hb : base.toNat ≤ q.toNat)
    (hf : f &&& pfBits = f) : ((q - base) ||| f) &&& pfBits = f := by
  have hs : (q - base).toNat = q.toNat - base.toNat := BitVec.toNat_sub_of_le hb
  have hlt := q.isLt
  simp only [base, BitVec.reduceToNat] at hb hs
  have hz : (q - base) &&& pfBits = 0 := by
    apply and_pfBits_eq_zero
    · simp only [base]
      omega
    · simp only [base]
      omega
  rw [BitVec.and_comm, BitVec.and_or_distrib_left, BitVec.and_comm pfBits (q - base), hz,
    BitVec.and_comm pfBits f, hf]
  exact BitVec.zero_or

/-- What pcx_init leaves behind: behind the root there is nothing but the window. -/
structure InitTree (p : Paging) (own : Ptr → Option (List (BitVec 9))) : Prop where
  zero : ∀ q w i, own q = some w → w ≠ [] → w ≠ [511, 511] → i :: w ≠ [511, 511] → p.mem q i = 0
  link : ∀ q w i t, own q = some w → entryView (4 - (w.length + 1)) (p.mem q i) = .table t →
    p.mem q i &&& pfBits = pfPres ||| pfWrite
  lower : ∀ i : BitVec 9, i.toNat < 256 → p.mem p.pcxRoot i = 0
  upper : ∀ i : BitVec 9, 256 ≤ i.toNat → p.mem p.pcxRoot i &&& pfPres ≠ 0

/-- The tree that pcx_init builds, when it gets its pages. -/
theorem pcxInit_built (p : Paging) (hd : ∀ k < p.pmmTaken + 258, S.page k ≠ 0) :
    ∃ own, TreeInv S (pcxInit S p) own ∧ InitTree (pcxInit S p) own := by
  have h0 := upperInv_zero (S := S) (S.page p.pmmTaken) p.mem (p.pmmTaken + 1) p.pmmTaken
    (by omega) rfl
  obtain ⟨own, h⟩ := pcxInitUpper_inv le_rfl h0 fun k hk => hd k (by simp only at hk; omega)
  obtain ⟨hr, ht⟩ := pcxInitUpper_frame (S := S)
    ⟨Function.update p.mem (S.page p.pmmTaken) fun _ => 0, S.page p.pmmTaken, p.pmmTaken + 1⟩ 256
  generalize hp : pcxInitUpper S 256
    ⟨Function.update p.mem (S.page p.pmmTaken) fun _ => 0, S.page p.pmmTaken, p.pmmTaken + 1⟩ = r
    at h hr ht
  have hne : S.page r.pmmTaken ≠ 0 := hd r.pmmTaken (by simp only at ht; omega)
  obtain ⟨pt3, h3⟩ := h.covers 511 (by decide) (by decide)
  have hpt2 : own (S.page r.pmmTaken) = none := by
    cases ho : own (S.page r.pmmTaken) with
    | none => rfl
    | some w =>
      obtain ⟨k, hk, he⟩ := h.taken _ _ ho
      have := S.fresh k r.pmmTaken he (he ▸ hne)
      omega
  have h32 : pt3 ≠ S.page r.pmmTaken := by
    rintro rfl
    rw [hpt2] at h3
    contradiction
  have hr2 : r.pcxRoot ≠ S.page r.pmmTaken := by
    intro he
    have := h.forest.own_root
    rw [he, hpt2] at this
    contradiction
  obtain ⟨k3, hk3, he3⟩ := h.taken _ _ h3
  have h3ne : pt3 ≠ 0 := he3 ▸ hd k3 (by simp only at ht; omega)
  have haddr : (r.mem r.pcxRoot 511 + base) &&& ~~~0xFFF = pt3 := by
    rw [h.entry pt3 511 h3, ← he3]
    exact entry_address (S.aligned k3) (S.window k3 (he3 ▸ h3ne))
  have hmem : pcxInit S p = ⟨link r.mem pt3 511
      ((S.page r.pmmTaken - base) ||| pfPres ||| pfWrite) (S.page r.pmmTaken) pinionPt2,
      r.pcxRoot, r.pmmTaken + 1⟩ := by
    simp only [pcxInit, pgeAlloc, hp, Function.update_of_ne hr2, haddr, Paging.mk.injEq, and_true]
    rw [link, write, write, Function.update_of_ne h32, Function.update_comm h32]
  have hv : entryView 2 ((S.page r.pmmTaken - base) ||| pfPres ||| pfWrite) =
      .table (S.page r.pmmTaken) := by
    have := entryView_table (h := 2) (f := pfPres ||| pfWrite) (S.aligned r.pmmTaken)
      (S.window _ hne) (by decide) (by decide) (by decide) (by decide)
    simpa [BitVec.or_assoc] using this
  have h3m : r.mem pt3 = fun _ => 0 := by
    rcases h.labels pt3 _ h3 with hw | ⟨-, hm⟩
    · simp at hw
    · exact hm
  rw [hmem]
  refine ⟨Function.update own (S.page r.pmmTaken) (some [511, 511]), ⟨?_, ?_, ?_, ?_⟩, ?_⟩
  · refine h.forest.link_forest h3 (by simp) hpt2 ?_ hv fun n j t => ?_
    · rw [h3m, zero_view]
    · rw [pinionPt2_view]
      simp
  · intro q w ho
    by_cases hq : q = S.page r.pmmTaken
    · exact ⟨r.pmmTaken, by simp, hq.symm⟩
    · rw [Function.update_of_ne hq] at ho
      obtain ⟨k, hk, he⟩ := h.taken q w ho
      exact ⟨k, by simp; omega, he⟩
  · exact ⟨S.page r.pmmTaken, Function.update_self .., link_self ..⟩
  · intro q w i ho hlen hpres hl
    by_cases hq : q = S.page r.pmmTaken
    · subst hq
      rw [Function.update_self] at ho
      exact (Option.some.inj ho).symm
    · rw [Function.update_of_ne hq] at ho
      simp only [link_of_ne hq] at hpres hl
      exfalso
      rcases h.labels q w ho with rfl | ⟨-, hm⟩
      · obtain rfl := (h.forest.root q).mp ho
        have hr3 : r.pcxRoot ≠ pt3 := by
          rintro he
          rw [← he, h.forest.own_root] at h3
          simp at h3
        rw [write_of_ne (Or.inl hr3)] at hl
        exact hl (h.small i)
      · by_cases hs : q = pt3 ∧ i = 511
        · obtain ⟨rfl, rfl⟩ := hs
          rw [write_self] at hpres hl
          rw [entryView, if_neg hpres, if_pos (Or.inl hl)] at hv
          exact absurd hv (by simp)
        · rw [write_of_ne (not_and_or.mp hs), hm] at hpres
          simp at hpres
  · have hkeep : ∀ q i, q ≠ S.page r.pmmTaken → ¬ (q = pt3 ∧ i = 511) →
        link r.mem pt3 511 ((S.page r.pmmTaken - base) ||| pfPres ||| pfWrite)
          (S.page r.pmmTaken) pinionPt2 q i = r.mem q i := by
      intro q i hq hs
      rw [link_of_ne hq, write_of_ne (not_and_or.mp hs)]
    have hr3 : r.pcxRoot ≠ pt3 := by
      rintro he
      rw [← he, h.forest.own_root] at h3
      simp at h3
    have hbits : ∀ q, q.toNat % 4096 = 0 → base.toNat ≤ q.toNat →
        ((q - base) ||| pfPres ||| pfWrite) &&& pfBits = pfPres ||| pfWrite := by
      intro q hq hb
      rw [BitVec.or_assoc]
      exact entry_bits hq hb (by decide)
    have hlink : ∀ i t, own t = some [i] →
        r.mem r.pcxRoot i &&& pfBits = pfPres ||| pfWrite := by
      intro i t hti
      obtain ⟨k, hk, he⟩ := h.taken _ _ hti
      have hk0 : S.page k ≠ 0 := hd k (by simp only at ht; omega)
      rw [h.entry t i hti, ← he]
      exact hbits _ (S.aligned k) (S.window k hk0)
    refine ⟨fun q w i ho hroot hwin hslot => ?_, fun q w i t ho hview => ?_, fun i hi => ?_,
      fun i hi => ?_⟩
    · by_cases hq : q = S.page r.pmmTaken
      · rw [hq, Function.update_self] at ho
        exact absurd (Option.some.inj ho).symm hwin
      · rw [Function.update_of_ne hq] at ho
        obtain ⟨-, hm⟩ := (h.labels q w ho).resolve_left hroot
        refine (hkeep q i hq ?_).trans (congrFun hm i)
        rintro ⟨rfl, rfl⟩
        rw [h3] at ho
        exact hslot (by rw [← Option.some.inj ho])
    · by_cases hq : q = S.page r.pmmTaken
      · rw [hq] at hview
        simp only [link_self, pinionPt2_view] at hview
        cases hview
      · rw [Function.update_of_ne hq] at ho
        by_cases hs : q = pt3 ∧ i = 511
        · obtain ⟨rfl, rfl⟩ := hs
          simp only [link_of_ne h32, write_self]
          exact hbits _ (S.aligned r.pmmTaken) (S.window _ hne)
        · simp only [hkeep q i hq hs] at hview ⊢
          rcases h.labels q w ho with rfl | ⟨-, hm⟩
          · obtain rfl := (h.forest.root q).mp ho
            exact hlink i t (h.forest.child _ _ _ _ ho hview)
          · rw [hm, zero_view] at hview
            cases hview
    · have hlow := pcxInitUpper_lower (S := S) ⟨Function.update p.mem (S.page p.pmmTaken) fun _ => 0,
        S.page p.pmmTaken, p.pmmTaken + 1⟩ 256 (fun k he => ?_) hi le_rfl
      · rw [hp, ← hr] at hlow
        refine (hkeep _ i hr2 fun hs => hr3 hs.1).trans (hlow.trans ?_)
        simp [hr]
      · have h0 := hd p.pmmTaken (by omega)
        have hk := S.fresh p.pmmTaken (p.pmmTaken + 1 + k) he.symm h0
        omega
    · obtain ⟨t, hti⟩ := h.covers i hi (by omega)
      have hpr : pfBits &&& pfPres = pfPres := by decide
      simp only [hkeep _ i hr2 fun hs => hr3 hs.1]
      rw [← hpr, ← BitVec.and_assoc, hlink i t hti]
      decide

theorem pcxInit_tree (p : Paging) (hd : ∀ k < p.pmmTaken + 258, S.page k ≠ 0) :
    ∃ own, TreeInv S (pcxInit S p) own := (pcxInit_built p hd).imp fun _ h => h.1

theorem pcxInit_inv (p : Paging) (hd : S.Delivers (p.pmmTaken + 258)) :
    ∃ own, TreeInv S (pcxInit S p) own :=
  pcxInit_tree p fun k hk => (hd k hk).1

end Pinion64
