import Pinion64.Coherent
import Pinion64.Api

/-! Creating and reaping threads: what tcb_new and tcb_del do to the table and the free list. -/
namespace Pinion64
open Intrusive

/-- A step on the block `t` that leaves the lists, the routes and the core alone. -/
structure TableStep (k k' : Kernel) (t : Ptr) : Prop where
  tcb : ∀ p, p ≠ t → k'.tcb p = k.tcb p
  tap : (k'.tcb t).tap = (k.tcb t).tap
  next : (k'.tcb t).next = (k.tcb t).next
  scheduleHead : k'.scheduleHead = k.scheduleHead
  scheduleTail : k'.scheduleTail = k.scheduleTail
  queueHead : k'.queueHead = k.queueHead
  vectorPageTable : k'.vectorPageTable = k.vectorPageTable
  activeTcb : k'.activeTcb = k.activeTcb
  tssIst1 : k'.tssIst1 = k.tssIst1
  taken : k.paging.pmmTaken ≤ k'.paging.pmmTaken

namespace TableStep

variable {k k' k'' : Kernel} {t : Ptr}

theorem refl (k : Kernel) (t : Ptr) : TableStep k k t :=
  ⟨fun _ _ => rfl, rfl, rfl, rfl, rfl, rfl, rfl, rfl, rfl, le_rfl⟩

theorem trans (h : TableStep k k' t) (h' : TableStep k' k'' t) : TableStep k k'' t where
  tcb p hp := (h'.tcb p hp).trans (h.tcb p hp)
  tap := h'.tap.trans h.tap
  next := h'.next.trans h.next
  scheduleHead := h'.scheduleHead.trans h.scheduleHead
  scheduleTail := h'.scheduleTail.trans h.scheduleTail
  queueHead := h'.queueHead.trans h.queueHead
  vectorPageTable := h'.vectorPageTable.trans h.vectorPageTable
  activeTcb := h'.activeTcb.trans h.activeTcb
  tssIst1 := h'.tssIst1.trans h.tssIst1
  taken := h.taken.trans h'.taken

theorem next_eq (h : TableStep k k' t) : k'.next = k.next := by
  funext p
  by_cases hp : p = t
  · rw [hp]
    exact h.next
  · exact congrArg Tcb.next (h.tcb p hp)

theorem tap_eq (h : TableStep k k' t) (p : Ptr) : (k'.tcb p).tap = (k.tcb p).tap := by
  by_cases hp : p = t
  · rw [hp]
    exact h.tap
  · exact congrArg Tcb.tap (h.tcb p hp)

theorem state_eq (h : TableStep k k' t) {p : Ptr} (hp : p ≠ t) : k'.state p = k.state p :=
  congrArg Tcb.state (h.tcb p hp)

theorem routeOf_eq (h : TableStep k k' t) (vec : BitVec 16) : k'.routeOf vec = k.routeOf vec := by
  rw [Kernel.routeOf, Kernel.routeOf, h.vectorPageTable]

/-- A change of the block that keeps its taps and its `next`. -/
theorem updTcb (k : Kernel) (t : Ptr) (f : Tcb → Tcb)
    (hf : ∀ b, (f b).tap = b.tap ∧ (f b).next = b.next) : TableStep k (k.updTcb t f) t where
  tcb p hp := k.updTcb_of_ne t p f hp
  tap := by rw [Kernel.updTcb_self, (hf _).1]
  next := by rw [Kernel.updTcb_self, (hf _).2]
  scheduleHead := rfl
  scheduleTail := rfl
  queueHead := rfl
  vectorPageTable := rfl
  activeTcb := rfl
  tssIst1 := rfl
  taken := le_rfl

theorem free (k : Kernel) (t : Ptr) : TableStep k (tcbFree k t) t := by
  have h := TableStep.updTcb k t (fun b => b.setWord0 k.tcbList) fun _ => ⟨rfl, rfl⟩
  exact ⟨h.tcb, h.tap, h.next, rfl, rfl, rfl, rfl, rfl, rfl, le_rfl⟩

end TableStep

section Table

theorem tableEntry_setTableEntry {k : Kernel} {i : ℕ} {subtab : ℕ → Ptr}
    (hs : k.tcbTable (i / 512) = some subtab) (t : Ptr) :
    (k.setTableEntry i t).tableEntry = Function.update k.tableEntry i t := by
  funext j
  by_cases hj : j = i
  · subst hj
    simp [Kernel.tableEntry, Kernel.setTableEntry, hs]
  · rw [Function.update_of_ne hj]
    by_cases hd : j / 512 = i / 512
    · have hm : j % 512 ≠ i % 512 := by omega
      simp [Kernel.tableEntry, Kernel.setTableEntry, hd, hs, hm]
    · simp [Kernel.tableEntry, Kernel.setTableEntry, hd]

/-- A new subtable is empty, so it enters no thread. -/
theorem tcbSubtable_spec (S : PageSource) (k : Kernel) (i : ℕ) (t : Ptr) :
    (tcbSubtable S k i).2.tableEntry = k.tableEntry ∧
    (tcbSubtable S k i).2.tcbList = k.tcbList ∧
    TableStep k (tcbSubtable S k i).2 t ∧
    ((tcbSubtable S k i).1 = true → ∃ s, (tcbSubtable S k i).2.tcbTable (i / 512) = some s) := by
  unfold tcbSubtable
  cases hs : k.tcbTable (i / 512) with
  | some s => exact ⟨rfl, rfl, .refl k t, fun _ => ⟨s, hs⟩⟩
  | none =>
    have hstep : ∀ tab, TableStep k
        { k with paging := (pgeAlloc S k.paging).2, tcbTable := tab } t := fun tab =>
      ⟨fun _ _ => rfl, rfl, rfl, rfl, rfl, rfl, rfl, rfl, rfl, Nat.le_succ _⟩
    simp only
    split_ifs
    · exact ⟨rfl, rfl, hstep _, by simp⟩
    · refine ⟨?_, rfl, hstep _, fun _ => ⟨_, Function.update_self ..⟩⟩
      funext j
      by_cases hj : j / 512 = i / 512
      · simp [Kernel.tableEntry, hj, hs]
      · simp [Kernel.tableEntry, hj]

end Table

/-- The block `t` has been put on the free list. -/
structure Freed (k k' : Kernel) (t : Ptr) : Prop where
  step : TableStep k k' t
  table : k'.tableEntry = k.tableEntry
  list : k'.tcbList = t
  link : k'.link t = k.tcbList

/-- The block `t` has been entered in the empty slot `i` as a suspended thread. -/
structure Entered (k k' : Kernel) (t : Ptr) (i : ℕ) : Prop where
  step : TableStep k k' t
  pos : 0 < i
  lt : i < tcbLimit
  empty : k.tableEntry i = 0
  table : k'.tableEntry = Function.update k.tableEntry i t
  list : k'.tcbList = k.tcbList
  state : k'.state t = tcbStateSuspended
  id : (k'.tcb t).id = BitVec.ofNat 32 i

theorem tcbFree_link (k : Kernel) (t : Ptr) : (tcbFree k t).link t = k.tcbList := by
  simp [Kernel.link, tcbFree, Kernel.updTcb]

theorem tcbFree_freed (k : Kernel) (t : Ptr) : Freed k (tcbFree k t) t :=
  ⟨.free k t, rfl, rfl, tcbFree_link k t⟩

/-- The table lock matters to no one else. -/
theorem TableStep.lock {k k' : Kernel} {t : Ptr} (h : TableStep k k' t) (b : Bool) :
    TableStep k { k' with tcbTableLock := b } t :=
  ⟨h.tcb, h.tap, h.next, h.scheduleHead, h.scheduleTail, h.queueHead, h.vectorPageTable,
    h.activeTcb, h.tssIst1, h.taken⟩

theorem Freed.after {k k₁ k' : Kernel} {t : Ptr} (h : Freed k₁ k' t) (hs : TableStep k k₁ t)
    (ht : k₁.tableEntry = k.tableEntry) (hl : k₁.tcbList = k.tcbList) : Freed k k' t :=
  ⟨hs.trans h.step, h.table.trans ht, h.list, h.link.trans hl⟩

theorem Entered.after {k k₁ k' : Kernel} {t : Ptr} {i : ℕ} (h : Entered k₁ k' t i)
    (hs : TableStep k k₁ t) (ht : k₁.tableEntry = k.tableEntry) (hl : k₁.tcbList = k.tcbList) :
    Entered k k' t i :=
  ⟨hs.trans h.step, h.pos, h.lt, ht ▸ h.empty, ht ▸ h.table, h.list.trans hl, h.state, h.id⟩

theorem enter_entered {k : Kernel} {i : ℕ} {s : ℕ → Ptr} {t : Ptr} (hpos : 0 < i)
    (hlt : i < tcbLimit) (hz : k.tableEntry i = 0) (hs : k.tcbTable (i / 512) = some s) :
    Entered k ((k.setTableEntry i t).updTcb t fun b => b.init i) t i where
  step :=
    have h := TableStep.updTcb k t (fun b => b.init i) fun _ => ⟨rfl, rfl⟩
    ⟨h.tcb, h.tap, h.next, rfl, rfl, rfl, rfl, rfl, rfl, le_rfl⟩
  pos := hpos
  lt := hlt
  empty := hz
  table := tableEntry_setTableEntry hs t
  list := rfl
  state := congrArg Tcb.state ((k.setTableEntry i t).updTcb_self t fun b => b.init i)
  id := congrArg Tcb.id ((k.setTableEntry i t).updTcb_self t fun b => b.init i)

/-- Without a subtable the page allocator has answered NULL. -/
theorem tcbSubtable_failed {S : PageSource} {k : Kernel} {i : ℕ}
    (h : (tcbSubtable S k i).1 = false) :
    S.page k.paging.pmmTaken = 0 ∧
      (tcbSubtable S k i).2.paging.pmmTaken = k.paging.pmmTaken + 1 := by
  unfold tcbSubtable at h ⊢
  cases hs : k.tcbTable (i / 512) with
  | some s => simp [hs] at h
  | none =>
    simp only [hs] at h ⊢
    by_cases hz : (pgeAlloc S k.paging).1 = 0
    · rw [if_pos hz]
      exact ⟨hz, rfl⟩
    · rw [if_neg hz] at h
      exact absurd h Bool.true_eq_false.mp

/-- The block `t` has left the slot `i` for the free list. -/
structure Removed (k k' : Kernel) (t : Ptr) (i : ℕ) : Prop where
  step : TableStep k k' t
  table : k'.tableEntry = Function.update k.tableEntry i 0
  list : k'.tcbList = t
  link : k'.link t = k.tcbList
  lock : k'.tcbTableLock = false

theorem tcbDel_removed {k : Kernel} {t : Ptr} {i : ℕ} (hne : t ≠ 0)
    (hfree : k.state t ≠ tcbStateFree) (hi : i < tcbLimit) (hid : (k.tcb t).id.toNat = i)
    (hit : k.tableEntry i = t) : Removed k (tcbDel k t) t i := by
  obtain ⟨s, hsub⟩ : ∃ s, k.tcbTable (i / 512) = some s := by
    cases hc : k.tcbTable (i / 512) with
    | none => exact absurd (by simpa [Kernel.tableEntry, hc] using hit) hne.symm
    | some s => exact ⟨s, rfl⟩
  let k₁ := k.setTableEntry i 0
  have hdel : tcbDel k t = tcbFree { k₁ with tcbTableLock := false } t := by
    have hfree : (k.tcb t).state ≠ tcbStateFree := hfree
    simp only [tcbDel, if_neg hne, if_neg hfree, hid, not_le.mpr hi, hsub, reduceCtorEq,
      or_self, if_false]
    rfl
  have hf := tcbFree_freed { k₁ with tcbTableLock := false } t
  rw [← hdel] at hf
  have hk₁ : TableStep k { k₁ with tcbTableLock := false } t :=
    ⟨fun _ _ => rfl, rfl, rfl, rfl, rfl, rfl, rfl, rfl, rfl, le_rfl⟩
  exact ⟨hk₁.trans hf.step, hf.table.trans (tableEntry_setTableEntry hsub 0), hf.list, hf.link,
    congrArg Kernel.tcbTableLock hdel⟩

/-- How the search of tcb_new ends: the block is free again because no slot is empty or an
allocation has failed, or it is entered in the first empty slot. -/
theorem tcbNewFrom_search (S : PageSource) (t : Ptr) {n : ℕ} (hn : n < tcbLimit) (k : Kernel) :
    ((tcbNewFrom S t n k).1 = 0 ∧ Freed k (tcbNewFrom S t n k).2 t ∧
        ((∀ j, tcbLimit - n ≤ j → j < tcbLimit → k.tableEntry j ≠ 0) ∨
          ∃ j, k.paging.pmmTaken ≤ j ∧ j < (tcbNewFrom S t n k).2.paging.pmmTaken ∧
            S.page j = 0)) ∨
      ((tcbNewFrom S t n k).1 = t ∧ ∃ i, Entered k (tcbNewFrom S t n k).2 t i ∧
        ∀ j, tcbLimit - n ≤ j → j < i → k.tableEntry j ≠ 0) := by
  induction n generalizing k with
  | zero =>
    exact Or.inl ⟨rfl, (tcbFree_freed _ t).after ((TableStep.refl k t).lock false) rfl rfl,
      Or.inl fun j h1 h2 => by omega⟩
  | succ n ih =>
    obtain ⟨hentry, hlist, hstep, hsome⟩ := tcbSubtable_spec S k (tcbLimit - (n+1)) t
    have hfail := @tcbSubtable_failed S k (tcbLimit - (n+1))
    simp only [tcbNewFrom]
    generalize tcbSubtable S k (tcbLimit - (n+1)) = r at hentry hlist hstep hsome hfail ⊢
    split_ifs with hfound hz
    · obtain ⟨h0, htaken⟩ := hfail hfound
      refine Or.inl ⟨rfl, (tcbFree_freed _ t).after (hstep.lock false) hentry hlist,
        Or.inr ⟨_, le_rfl, ?_, h0⟩⟩
      change k.paging.pmmTaken < r.2.paging.pmmTaken
      omega
    · obtain ⟨s, hs⟩ := hsome (by simpa using hfound)
      have he := (enter_entered (t := t) (by omega) (by omega) hz hs).after hstep hentry hlist
      exact Or.inr ⟨rfl, _, ⟨he.step.lock false, he.pos, he.lt, he.empty, he.table, he.list,
        he.state, he.id⟩, fun j h1 h2 => by omega⟩
    · have hskip : ∀ j, tcbLimit - (n+1) ≤ j → tcbLimit - n ≤ j ∨ k.tableEntry j ≠ 0 := by
        intro j hj
        by_cases he : j = tcbLimit - (n+1)
        · rw [hentry] at hz
          exact Or.inr (he ▸ hz)
        · exact Or.inl (by omega)
      rcases ih (by omega) r.2 with ⟨h1, h2, h3⟩ | ⟨h1, i, h2, h3⟩
      · refine Or.inl ⟨h1, h2.after hstep hentry hlist, ?_⟩
        rcases h3 with h3 | ⟨j, hj1, hj2, hj3⟩
        · refine Or.inl fun j hj1 hj2 => (hskip j hj1).elim (fun hj => ?_) id
          have := h3 j hj hj2
          rwa [hentry] at this
        · exact Or.inr ⟨j, hstep.taken.trans hj1, hj2, hj3⟩
      · refine Or.inr ⟨h1, i, h2.after hstep hentry hlist, fun j hj1 hj2 =>
          (hskip j hj1).elim (fun hj => ?_) id⟩
        have := h3 j hj hj2
        rwa [hentry] at this

theorem tcbNewFrom_lock (S : PageSource) (t : Ptr) (n : ℕ) (k : Kernel) :
    (tcbNewFrom S t n k).2.tcbTableLock = false := by
  induction n generalizing k with
  | zero => rfl
  | succ n ih =>
    simp only [tcbNewFrom]
    split_ifs
    · rfl
    · rfl
    · exact ih _

theorem tcbNewFrom_cases (S : PageSource) (t : Ptr) {n : ℕ} (hn : n < tcbLimit) (k : Kernel) :
    ((tcbNewFrom S t n k).1 = 0 ∧ Freed k (tcbNewFrom S t n k).2 t) ∨
      ((tcbNewFrom S t n k).1 = t ∧ ∃ i, Entered k (tcbNewFrom S t n k).2 t i) := by
  rcases tcbNewFrom_search S t hn k with ⟨h1, h2, -⟩ | ⟨h1, i, h2, -⟩
  · exact Or.inl ⟨h1, h2⟩
  · exact Or.inr ⟨h1, i, h2⟩

/-- Where tcb_alloc takes a block: nowhere when its list is empty and no page is left, from the
head of its list, or from the page allocator. -/
theorem tcbAlloc_cases (S : PageSource) (k : Kernel) {free : List Ptr}
    (hc : Chain k.link 0 k.tcbList free) :
    ((tcbAlloc S k).1 = 0 ∧
      (tcbAlloc S k).2 = { k with paging := (pgeAlloc S k.paging).2 } ∧
      S.page k.paging.pmmTaken = 0) ∨
    ∃ rest, (tcbAlloc S k).1 ≠ 0 ∧ TableStep k (tcbAlloc S k).2 (tcbAlloc S k).1 ∧
      (tcbAlloc S k).2.tableEntry = k.tableEntry ∧
      Chain (tcbAlloc S k).2.link 0 (tcbAlloc S k).2.tcbList rest ∧
      (free = (tcbAlloc S k).1 :: rest ∨ free = [] ∧ rest = [] ∧
        S.page k.paging.pmmTaken = (tcbAlloc S k).1 ∧
        (tcbAlloc S k).2.paging.pmmTaken = k.paging.pmmTaken + 1) := by
  by_cases hl : k.tcbList = 0
  · let k₁ := { k with paging := (pgeAlloc S k.paging).2 }
    let q := S.page k.paging.pmmTaken
    let k₂ := k₁.updTcb q fun b => b.setWord0 k.tcbList
    have halloc : tcbAlloc S k = if q = 0 then (0, k₁) else (q, { k₂ with tcbList := k₂.link q }) := by
      rw [tcbAlloc, if_neg (not_not.mpr hl)]
      rfl
    rw [halloc]
    split_ifs with hz
    · exact Or.inl ⟨rfl, rfl, hz⟩
    · have hfree : free = [] := by
        rw [hl] at hc
        exact hc.eq_nil
      have hlink : k₂.link q = 0 := by
        rw [Kernel.link, Kernel.updTcb_self, Tcb.word0_setWord0, hl]
      have hs : TableStep k₁ k₂ q := .updTcb k₁ q _ fun _ => ⟨rfl, rfl⟩
      exact Or.inr ⟨[], hz, ⟨hs.tcb, hs.tap, hs.next, rfl, rfl, rfl, rfl, rfl, rfl, Nat.le_succ _⟩, rfl,
        Chain.nil_iff.mpr hlink, Or.inr ⟨hfree, rfl, rfl, rfl⟩⟩
  · obtain ⟨rest, rfl, hrest⟩ := hc.exists_cons hl
    have halloc : tcbAlloc S k = (k.tcbList, { k with tcbList := k.link k.tcbList }) := by
      rw [tcbAlloc, if_pos hl]
    rw [halloc]
    exact Or.inr ⟨rest, hl, ⟨fun _ _ => rfl, rfl, rfl, rfl, rfl, rfl, rfl, rfl, rfl, le_rfl⟩, rfl,
      hrest, Or.inl rfl⟩

namespace Coherent

variable {P : Platform} {k k' : Kernel} {run free rest : List Ptr} {t p : Ptr}

/-- The block `t` has been taken off the free list or from the page allocator, the free list
that is left is `rest`. -/
structure Taken (P : Platform) (k k' : Kernel) (free rest : List Ptr) (t : Ptr) : Prop where
  ne_zero : t ≠ 0
  step : TableStep k k' t
  table : k'.tableEntry = k.tableEntry
  chain : Chain k'.link 0 k'.tcbList rest
  page : k'.Page P t
  split : free = t :: rest ∨ free = [] ∧ rest = []
  dead : ¬ k.Live t

theorem tcbAlloc_taken (h : Coherent P k run free) :
    ((tcbAlloc P.pages k).1 = 0 ∧
      (tcbAlloc P.pages k).2 = { k with paging := (pgeAlloc P.pages k.paging).2 }) ∨
    ∃ rest, Taken P k (tcbAlloc P.pages k).2 free rest (tcbAlloc P.pages k).1 := by
  rcases tcbAlloc_cases P.pages k h.chain with
    ⟨hz, hk, -⟩ | ⟨rest, hne, hs, htab, hc, hfree | ⟨hfree, hrest, hpage, htaken⟩⟩
  · exact Or.inl ⟨hz, hk⟩
  · have hmem : (tcbAlloc P.pages k).1 ∈ free := hfree ▸ List.mem_cons_self ..
    obtain ⟨j, hj, he⟩ := h.page _ (Or.inr hmem)
    exact Or.inr ⟨rest, hne, hs, htab, hc, ⟨j, hj.trans_le hs.taken, he⟩, Or.inl hfree,
      h.dead _ hmem⟩
  · refine Or.inr ⟨rest, hne, hs, htab, hc, ⟨_, by omega, hpage⟩, Or.inr ⟨hfree, hrest⟩,
      fun hlive => ?_⟩
    obtain ⟨j, hj, he⟩ := h.page _ (Or.inl hlive)
    have hjk := P.pages.fresh j k.paging.pmmTaken (he.trans hpage.symm) (by rwa [he])
    omega

theorem Taken.ne_idle {k₁ : Kernel} (h : Taken P k k₁ free rest t) : t ≠ P.idleTcb := by
  rintro rfl
  obtain ⟨j, -, hj⟩ := h.page
  exact P.idle_page j hj

theorem Taken.not_mem_rest {k₁ : Kernel} (h : Coherent P k run free)
    (ht : Taken P k k₁ free rest t) : t ∉ rest := by
  rcases ht.split with rfl | ⟨-, rfl⟩
  · exact (List.nodup_cons.mp h.chain.nodup).1
  · simp

theorem Taken.rest_sub {k₁ : Kernel} (ht : Taken P k k₁ free rest t) (hp : p ∈ rest) :
    p ∈ free := by
  rcases ht.split with rfl | ⟨-, rfl⟩
  · exact List.mem_cons_of_mem _ hp
  · simp at hp

theorem Taken.free_sub {k₁ : Kernel} (ht : Taken P k k₁ free rest t) (hp : p ∈ free) :
    p = t ∨ p ∈ rest := by
  rcases ht.split with rfl | ⟨rfl, -⟩
  · exact List.mem_cons.mp hp
  · simp at hp

/-- A step that moves one block between the table, the free list and the page allocator. -/
theorem table (h : Coherent P k run free) {free' : List Ptr} (hs : TableStep k k' t)
    (hrun : t ∉ run) (hidle : t ≠ P.idleTcb) (hact : k.activeTcb ≠ t)
    (hlive : ∀ p, p ≠ t → (k'.Live p ↔ k.Live p)) (hq : k'.Live t → k'.state t ≠ tcbStateQueued)
    (hc : Chain k'.link 0 k'.tcbList free') (hpage : k'.Page P t)
    (hfree : ∀ p, p ≠ t → (p ∈ free' ↔ p ∈ free)) (hdead : t ∈ free' → ¬ k'.Live t)
    (hkeep : k.Live t ∨ t ∈ free → k'.Live t ∨ t ∈ free')
    (hid : ∀ i < tcbLimit, k'.tableEntry i = t → (k'.tcb t).id = BitVec.ofNat 32 i)
    (hother : ∀ i < tcbLimit, k'.tableEntry i ≠ t → k'.tableEntry i ≠ 0 →
      k'.tableEntry i = k.tableEntry i)
    (hzero : k'.tableEntry 0 = 0) : Coherent P k' run free' := by
  have hmem : ∀ p, (k'.Live p ∨ p = P.idleTcb) ∧ k'.state p = tcbStateQueued ↔
      (k.Live p ∨ p = P.idleTcb) ∧ k.state p = tcbStateQueued ∧ p ≠ t := by
    intro p
    by_cases hp : p = t
    · subst hp
      simp only [ne_eq, not_true_eq_false, and_false, iff_false, not_and]
      rintro (hl | hi)
      · exact hq hl
      · exact absurd hi hidle
    · rw [hlive p hp, hs.state_eq hp]
      simp [hp]
  constructor
  · rw [hs.next_eq, hs.scheduleHead, hs.scheduleTail]
    exact h.fifo
  · intro p
    rw [hmem, h.queued]
    constructor
    · rintro ⟨h1, h2⟩
      refine ⟨h1, h2, ?_⟩
      rintro rfl
      exact hrun ((h.queued p).mpr ⟨h1, h2⟩)
    · rintro ⟨h1, h2, -⟩
      exact ⟨h1, h2⟩
  · exact hc
  · intro p hp
    by_cases he : p = t
    · rw [he]
      exact hpage
    · rw [hlive p he, hfree p he] at hp
      obtain ⟨j, hj, hjp⟩ := h.page p hp
      exact ⟨j, hj.trans_le hs.taken, hjp⟩
  · intro p hp
    by_cases he : p = t
    · subst he
      exact hdead hp
    · rw [hlive p he]
      exact h.dead p ((hfree p he).mp hp)
  · intro i hi hne
    by_cases he : k'.tableEntry i = t
    · rw [he]
      exact hid i hi he
    · rw [hs.tcb _ he, hother i hi he hne]
      exact h.id i hi (by rwa [← hother i hi he hne])
  · exact hzero
  · rw [hs.tcb _ hidle.symm]
    exact h.idle_id
  · intro vec hv r hr i
    rw [hs.routeOf_eq] at hr
    have hold := h.route vec hv r hr i
    by_cases he : r i = t
    · rw [he] at hold ⊢
      exact hold.imp_right hkeep
    · rw [hlive _ he, hfree _ he]
      exact hold
  · rw [hs.activeTcb]
    rcases h.active with h0 | ⟨h1, h2⟩
    · exact Or.inl h0
    · rw [hlive _ hact, hs.state_eq hact]
      exact Or.inr ⟨h1, h2⟩

theorem Taken.not_mem_run {k₁ : Kernel} (h : Coherent P k run free)
    (ht : Taken P k k₁ free rest t) : t ∉ run := by
  intro hm
  rcases h.mem_run hm with hl | hi
  · exact ht.dead hl
  · exact ht.ne_idle hi

theorem Taken.not_active {k₁ : Kernel} (h : Coherent P k run free)
    (ht : Taken P k k₁ free rest t) : k.activeTcb ≠ t := by
  rintro rfl
  rcases (h.active.resolve_left ht.ne_zero).1 with hl | hi
  · exact ht.dead hl
  · exact ht.ne_idle hi

/-- The block that tcb_new could not enter goes to the free list. -/
theorem freed {k₁ : Kernel} (h : Coherent P k run free) (ht : Taken P k k₁ free rest t)
    (hf : Freed k₁ k' t) : Coherent P k' run (t :: rest) := by
  have hs := ht.step.trans hf.step
  have htab := hf.table.trans ht.table
  have hlive : ∀ p, k'.Live p ↔ k.Live p := fun p => by simp only [Kernel.Live, htab]
  have hdead : ¬ k'.Live t := fun hl => ht.dead ((hlive t).mp hl)
  obtain ⟨j, hj, hje⟩ := ht.page
  have hchain : Chain k'.link 0 k'.tcbList (t :: rest) := by
    rw [hf.list, Chain.cons_iff, hf.link]
    refine ⟨rfl, ht.ne_zero, ht.chain.congr fun p hp => congrArg Tcb.word0 (hf.step.tcb p ?_)⟩
    rintro rfl
    exact ht.not_mem_rest h hp
  have hentry : ∀ i < tcbLimit, k'.tableEntry i ≠ t := fun i hi he =>
    hdead ⟨ht.ne_zero, i, hi, he⟩
  refine h.table hs (ht.not_mem_run h) ht.ne_idle (ht.not_active h) (fun p _ => hlive p)
    (fun hl => absurd hl hdead) hchain ⟨j, hj.trans_le hf.step.taken, hje⟩ (fun p hp => ?_)
    (fun _ => hdead) (fun _ => Or.inr (List.mem_cons_self ..))
    (fun i hi he => absurd he (hentry i hi)) (fun i _ _ _ => congrFun htab i) ?_
  · rw [List.mem_cons, or_iff_right hp]
    exact ⟨ht.rest_sub, fun hm => (ht.free_sub hm).resolve_left hp⟩
  · rw [htab]
    exact h.entry_zero

theorem Taken.live {k₁ : Kernel} {i : ℕ} (ht : Taken P k k₁ free rest t)
    (he : Entered k₁ k' t i) (p : Ptr) : k'.Live p ↔ k.Live p ∨ p = t := by
  have hz : k.tableEntry i = 0 := by
    rw [← ht.table]
    exact he.empty
  have htab : k'.tableEntry = Function.update k.tableEntry i t := by
    rw [he.table, ht.table]
  simp only [Kernel.Live, htab]
  constructor
  · rintro ⟨hne, j, hj, hp⟩
    by_cases hji : j = i
    · rw [hji, Function.update_self] at hp
      exact Or.inr hp.symm
    · rw [Function.update_of_ne hji] at hp
      exact Or.inl ⟨hne, j, hj, hp⟩
  · rintro (⟨hne, j, hj, hp⟩ | rfl)
    · refine ⟨hne, j, hj, ?_⟩
      rw [Function.update_of_ne, hp]
      rintro rfl
      exact hne (hp.symm.trans hz)
    · exact ⟨ht.ne_zero, i, he.lt, Function.update_self ..⟩

/-- The block that tcb_new enters becomes a live suspended thread. -/
theorem entered {k₁ : Kernel} {i : ℕ} (h : Coherent P k run free)
    (ht : Taken P k k₁ free rest t) (he : Entered k₁ k' t i) : Coherent P k' run rest := by
  have hs := ht.step.trans he.step
  have hlive := ht.live he
  obtain ⟨j, hj, hje⟩ := ht.page
  have htab : k'.tableEntry = Function.update k.tableEntry i t := by
    rw [he.table, ht.table]
  have hchain : Chain k'.link 0 k'.tcbList rest := by
    rw [he.list]
    refine ht.chain.congr fun p hp => congrArg Tcb.word0 (he.step.tcb p ?_)
    rintro rfl
    exact ht.not_mem_rest h hp
  have hold : ∀ j < tcbLimit, k.tableEntry j ≠ t := fun j hj hjt =>
    ht.dead ⟨ht.ne_zero, j, hj, hjt⟩
  refine h.table hs (ht.not_mem_run h) ht.ne_idle (ht.not_active h) (fun p hp => ?_) (fun _ => ?_)
    hchain ⟨j, hj.trans_le he.step.taken, hje⟩ (fun p hp => ?_)
    (fun hm => absurd hm (ht.not_mem_rest h)) (fun _ => Or.inl ((hlive t).mpr (Or.inr rfl)))
    (fun j hj hjt => ?_) (fun j hj hjt _ => ?_) ?_
  · rw [hlive, or_iff_left hp]
  · rw [he.state]
    decide
  · exact ⟨ht.rest_sub, fun hm => (ht.free_sub hm).resolve_left hp⟩
  · rw [htab] at hjt
    by_cases hji : j = i
    · rw [hji]
      exact he.id
    · rw [Function.update_of_ne hji] at hjt
      exact absurd hjt (hold j hj)
  · rw [htab] at hjt ⊢
    apply Function.update_of_ne
    rintro rfl
    exact hjt (Function.update_self ..)
  · rw [htab, Function.update_of_ne he.pos.ne]
    exact h.entry_zero

end Coherent

/-- What thread_create does: the block `t` becomes a thread with the id that is returned, or,
if the answer is 0, it stays or goes back among the unused ones. -/
structure Creation (P : Platform) (k k' : Kernel) (i : BitVec 32) (t : Ptr) : Prop where
  dead : ¬ k.Live t
  ne_idle : t ≠ P.idleTcb
  step : TableStep k k' t
  live : ∀ p, k'.Live p ↔ k.Live p ∨ i ≠ 0 ∧ p = t
  found : i ≠ 0 → tcbGet k' i = t ∧ k'.state t = tcbStateSuspended
  alloc : t = (tcbAlloc P.pages k).1

/-- What thread_reap does: the block `t` leaves the table for the free list. -/
structure Reaping (k k' : Kernel) (t : Ptr) : Prop where
  step : TableStep k k' t
  live : ∀ p, k'.Live p ↔ k.Live p ∧ p ≠ t

namespace Coherent

variable {P : Platform} {k : Kernel} {run free : List Ptr} {t : Ptr}

theorem create (h : Coherent P k run free) :
    ∃ t free', Coherent P (apilogicThreadCreate P.pages k).2 run free' ∧
      Creation P k (apilogicThreadCreate P.pages k).2 (apilogicThreadCreate P.pages k).1 t := by
  rcases h.tcbAlloc_taken with ⟨hz, hk⟩ | ⟨rest, ht⟩
  · have hc : apilogicThreadCreate P.pages k =
        (0, { k with paging := (pgeAlloc P.pages k.paging).2 }) := by
      simp only [apilogicThreadCreate, tcbNew, hz, if_true, hk]
    rw [hc]
    exact ⟨0, free, h.paging (Nat.le_succ _), fun hl => hl.1 rfl, P.idle_ne.symm,
      ⟨fun _ _ => rfl, rfl, rfl, rfl, rfl, rfl, rfl, rfl, rfl, Nat.le_succ _⟩,
      fun p => by simp [Kernel.Live, Kernel.tableEntry], fun hi => absurd rfl hi, hz.symm⟩
  · generalize hr : tcbAlloc P.pages k = r at ht
    have hnew : tcbNew P.pages k =
        tcbNewFrom P.pages r.1 (tcbLimit - 1) { r.2 with tcbTableLock := true } := by
      rw [tcbNew, hr]
      exact if_neg ht.ne_zero
    have htl : Taken P k { r.2 with tcbTableLock := true } free rest r.1 :=
      ⟨ht.ne_zero, ht.step.lock true, ht.table, ht.chain, ht.page, ht.split, ht.dead⟩
    rcases tcbNewFrom_cases P.pages r.1 (n := tcbLimit - 1) (by decide)
      { r.2 with tcbTableLock := true } with ⟨h0, hf⟩ | ⟨h1, i, he⟩
    · rw [← hnew] at h0 hf
      have hc : apilogicThreadCreate P.pages k = (0, (tcbNew P.pages k).2) := by
        simp only [apilogicThreadCreate, h0, if_true]
      have hlive : ∀ p, (tcbNew P.pages k).2.Live p ↔ k.Live p := fun p => by
        simp only [Kernel.Live, hf.table.trans htl.table]
      rw [hc]
      exact ⟨r.1, _, h.freed htl hf, ht.dead, htl.ne_idle, htl.step.trans hf.step,
        fun p => by simp [hlive], fun hi => absurd rfl hi, congrArg Prod.fst hr.symm⟩
    · rw [← hnew] at h1 he
      have hcoh := h.entered htl he
      have hl := htl.live he
      have hlt : (tcbNew P.pages k).2.Live r.1 := (hl r.1).mpr (Or.inr rfl)
      have hc : apilogicThreadCreate P.pages k = (BitVec.ofNat 32 i,
          (tcbNew P.pages k).2.setState r.1 tcbStateSuspended) := by
        simp only [apilogicThreadCreate, h1, if_neg ht.ne_zero, Kernel.setState_id, he.id]
      have hi : BitVec.ofNat 32 i ≠ 0 := by
        intro hz
        have hpos := he.pos
        have hlt := he.lt
        have := congrArg BitVec.toNat hz
        simp only [BitVec.toNat_ofNat, tcbLimit, BitVec.ofNat_eq_ofNat] at this hlt
        omega
      have hst : (tcbNew P.pages k).2.state r.1 ≠ tcbStateQueued := by
        rw [he.state]
        decide
      have hcoh' := hcoh.shift hlt hst (s := tcbStateSuspended) (by decide)
      have hset : TableStep (tcbNew P.pages k).2
          ((tcbNew P.pages k).2.setState r.1 tcbStateSuspended) r.1 :=
        .updTcb _ _ _ fun _ => ⟨rfl, rfl⟩
      rw [hc]
      refine ⟨r.1, rest, hcoh', ht.dead, htl.ne_idle, (htl.step.trans he.step).trans hset,
        fun p => ?_, fun _ => ⟨?_, ?_⟩, congrArg Prod.fst hr.symm⟩
      · simp only [ne_eq, hi, not_false_eq_true, true_and]
        exact hl p
      · have hg := hcoh'.get_id (p := r.1) hlt
        rwa [Kernel.setState_id, he.id] at hg
      · rw [Kernel.setState_state, if_pos rfl]

/-- A suspended thread that is not active is reaped. -/
theorem reap (h : Coherent P k run free) (ht : k.Live t) (hs : k.state t = tcbStateSuspended)
    (ha : k.activeTcb ≠ t) :
    Coherent P (tcbDel k t) run (t :: free) ∧ Reaping k (tcbDel k t) t := by
  obtain ⟨hne, i, hi, hit⟩ := ht
  have hid : (k.tcb t).id.toNat = i := by
    have hb : (k.tcb t).id = BitVec.ofNat 32 i := by
      rw [← hit]
      exact h.id i hi (hit ▸ hne)
    rw [hb, BitVec.toNat_ofNat]
    simp only [tcbLimit] at hi
    omega
  have hr := tcbDel_removed hne (by rw [hs]; decide) hi hid hit
  have hstep := hr.step
  have htab := hr.table
  -- the id tells the slot, so no other slot holds the block
  have huniq : ∀ j < tcbLimit, k.tableEntry j = t → j = i := by
    intro j hj hjt
    have hb : (k.tcb t).id = BitVec.ofNat 32 j := by
      rw [← hjt]
      exact h.id j hj (hjt ▸ hne)
    rw [hb, BitVec.toNat_ofNat] at hid
    simp only [tcbLimit] at hj
    omega
  have hnone : ∀ j < tcbLimit, (tcbDel k t).tableEntry j ≠ t := by
    intro j hj
    rw [htab]
    by_cases hji : j = i
    · rw [hji, Function.update_self]
      exact hne.symm
    · rw [Function.update_of_ne hji]
      exact fun hjt => hji (huniq j hj hjt)
  have hlive : ∀ p, (tcbDel k t).Live p ↔ k.Live p ∧ p ≠ t := by
    intro p
    simp only [Kernel.Live]
    constructor
    · rintro ⟨hp, j, hj, hjp⟩
      have hpt : p ≠ t := hjp ▸ hnone j hj
      refine ⟨⟨hp, j, hj, ?_⟩, hpt⟩
      rw [htab] at hjp
      rwa [Function.update_of_ne] at hjp
      rintro rfl
      exact hp (hjp.symm.trans (Function.update_self ..))
    · rintro ⟨⟨hp, j, hj, hjp⟩, hpt⟩
      refine ⟨hp, j, hj, ?_⟩
      rw [htab, Function.update_of_ne, hjp]
      rintro rfl
      exact hpt (hjp.symm.trans hit)
  have hchain : Chain (tcbDel k t).link 0 (tcbDel k t).tcbList (t :: free) := by
    rw [hr.list, Chain.cons_iff, hr.link]
    refine ⟨rfl, hne, h.chain.congr fun p hp => congrArg Tcb.word0 (hstep.tcb p ?_)⟩
    rintro rfl
    exact h.dead p hp ⟨hne, i, hi, hit⟩
  refine ⟨h.table hstep (h.not_mem_run ?_) (h.live_ne_idle ⟨hne, i, hi, hit⟩) ha (fun p hp => ?_)
    (fun hl => absurd rfl ((hlive t).mp hl).2) hchain ?_ (fun p hp => ?_)
    (fun _ hl => ((hlive t).mp hl).2 rfl) (fun _ => Or.inr (List.mem_cons_self ..))
    (fun j hj hjt => absurd hjt (hnone j hj)) (fun j _ _ hj0 => ?_) ?_, hstep, hlive⟩
  · rw [hs]
    decide
  · rw [hlive, and_iff_left hp]
  · obtain ⟨j, hj, hje⟩ := h.page t (Or.inl ⟨hne, i, hi, hit⟩)
    exact ⟨j, hj.trans_le hstep.taken, hje⟩
  · rw [List.mem_cons, or_iff_right hp]
  · rw [htab] at hj0 ⊢
    apply Function.update_of_ne
    rintro rfl
    exact hj0 (Function.update_self ..)
  · rw [htab, Function.update_of_ne]
    · exact h.entry_zero
    · rintro rfl
      exact hne (hit.symm.trans h.entry_zero)

end Coherent
end Pinion64
