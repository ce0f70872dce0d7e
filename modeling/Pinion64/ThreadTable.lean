import Pinion64.Reach
import Mathlib.Order.Bounds.Basic

/-! The thread table as what it is for: a map from ids to threads, under any history of tcb_new
and tcb_del, with holders editing their threads and others taking pages in between. -/
namespace Pinion64
open Intrusive Transition

/-- `live` lists the threads that tcb_new has returned and tcb_del has not taken back. -/
structure Table where
  kernel : Kernel
  live : List Ptr

inductive TableOp
  | new
  | del (p : Ptr)
  /-- Another user of pge_alloc takes a page. -/
  | page
  /-- A holder changes its thread, but neither its id nor its being in use. -/
  | edit (p : Ptr) (f : Tcb → Tcb)

namespace Table

def id (s : Table) (p : Ptr) : BitVec 32 := (s.kernel.tcb p).id

def step (S : PageSource) (s : Table) : TableOp → Option Table
  | .new =>
    let (p, k) := tcbNew S s.kernel
    some ⟨k, if p = 0 then s.live else p :: s.live⟩
  | .del p => if p ∈ s.live then some ⟨tcbDel s.kernel p, s.live.erase p⟩ else none
  | .page => some { s with kernel.paging := (pgeAlloc S s.kernel.paging).2 }
  | .edit p f =>
    if p ∈ s.live ∧ (f (s.kernel.tcb p)).id = s.id p ∧
        (f (s.kernel.tcb p)).state ≠ tcbStateFree then
      some { s with kernel := s.kernel.updTcb p f }
    else none

/-- The table, the free list and the lock as the bss section has them. -/
structure Empty (s : Table) : Prop where
  live : s.live = []
  tcbTable : ∀ i, s.kernel.tcbTable i = none
  tcbList : s.kernel.tcbList = 0
  lock : s.kernel.tcbTableLock = false

/-- No thread has the id `i`. -/
def Vacant (s : Table) (i : ℕ) : Prop := ∀ p ∈ s.live, (s.id p).toNat ≠ i

/-- The ids that tcb_new chooses from. -/
def freeIds (s : Table) : Set ℕ := {i | 1 ≤ i ∧ i ≤ 65535 ∧ s.Vacant i}

/-- `k'` is what tcb_new leaves when it returns NULL. -/
structure Refused (S : PageSource) (s : Table) (k' : Kernel) : Prop where
  cause : (∀ i, 1 ≤ i → i ≤ 65535 → ¬ s.Vacant i) ∨
    ∃ j, s.kernel.paging.pmmTaken ≤ j ∧ j < k'.paging.pmmTaken ∧ S.page j = 0
  get : ∀ i, tcbGet k' i = tcbGet s.kernel i
  thread : ∀ p ∈ s.live, k'.tcb p = s.kernel.tcb p
  pool : ∃ free, Chain k'.link 0 k'.tcbList free ∧ ∀ p, p ∈ free ↔
    Meets s.kernel.link 0 s.kernel.tcbList p ∨ p ≠ 0 ∧ p = (tcbAlloc S s.kernel).1
  lock : k'.tcbTableLock = false

/-- The table is a map from the ids in use to the threads that have them. -/
structure Faithful (S : PageSource) (s : Table) : Prop where
  distinct : (s.live.map s.id).Nodup
  range : ∀ p ∈ s.live, 1 ≤ (s.id p).toNat ∧ (s.id p).toNat ≤ 65535
  get : ∀ p ∈ s.live, p ≠ 0 ∧ tcbGet s.kernel (s.id p) = p
  get_none : ∀ i, (∀ p ∈ s.live, s.id p ≠ i) → tcbGet s.kernel i = 0
  new : (tcbNew S s.kernel).1 ≠ 0 → (tcbNew S s.kernel).1 ∉ s.live ∧
    IsLeast s.freeIds ((tcbNew S s.kernel).2.tcb (tcbNew S s.kernel).1).id.toNat
  refused : (tcbNew S s.kernel).1 = 0 → s.Refused S (tcbNew S s.kernel).2

/-- What every operation keeps; `free` lists the free blocks. -/
structure Inv (S : PageSource) (s : Table) (free : List Ptr) : Prop where
  chain : Chain s.kernel.link 0 s.kernel.tcbList free
  page : ∀ p, p ∈ s.live ∨ p ∈ free → ∃ j < s.kernel.paging.pmmTaken, S.page j = p
  dead : ∀ p ∈ free, p ∉ s.live
  nodup : s.live.Nodup
  entry : ∀ i < tcbLimit, s.kernel.tableEntry i ≠ 0 → s.kernel.tableEntry i ∈ s.live ∧
    s.id (s.kernel.tableEntry i) = BitVec.ofNat 32 i
  live : ∀ p ∈ s.live, p ≠ 0 ∧ ∃ i < tcbLimit, s.kernel.tableEntry i = p
  entry_zero : s.kernel.tableEntry 0 = 0
  state : ∀ p ∈ s.live, s.kernel.state p ≠ tcbStateFree
  lock : s.kernel.tcbTableLock = false

namespace Inv

variable {S : PageSource} {s : Table} {free : List Ptr} {p : Ptr}

theorem empty (h : s.Empty) : s.Inv S [] where
  chain := Chain.nil_iff.mpr h.tcbList
  page p hp := by simp [h.live] at hp
  dead p hp := by simp at hp
  nodup := by simp [h.live]
  entry i _ hi := absurd (by simp [Kernel.tableEntry, h.tcbTable]) hi
  live p hp := by simp [h.live] at hp
  entry_zero := by simp [Kernel.tableEntry, h.tcbTable]
  state p hp := by simp [h.live] at hp
  lock := h.lock

/-- A thread sits in the slot of its id. -/
theorem slot (h : s.Inv S free) (hp : p ∈ s.live) :
    ∃ i, 0 < i ∧ i < tcbLimit ∧ s.kernel.tableEntry i = p ∧ (s.id p).toNat = i := by
  obtain ⟨hne, i, hi, rfl⟩ := h.live p hp
  refine ⟨i, Nat.pos_of_ne_zero ?_, hi, rfl, ?_⟩
  · rintro rfl
    exact hne h.entry_zero
  · rw [(h.entry i hi hne).2, BitVec.toNat_ofNat]
    simp only [tcbLimit] at hi
    omega

theorem vacant_iff (h : s.Inv S free) {i : ℕ} (hi : i < tcbLimit) :
    s.Vacant i ↔ s.kernel.tableEntry i = 0 := by
  constructor
  · intro hv
    by_contra hne
    obtain ⟨hm, hid⟩ := h.entry i hi hne
    refine hv _ hm ?_
    rw [hid, BitVec.toNat_ofNat]
    simp only [tcbLimit] at hi
    omega
  · rintro hz p hp rfl
    obtain ⟨j, -, -, hj, hid⟩ := h.slot hp
    rw [hid, hj] at hz
    exact (h.live p hp).1 hz

/-- A step on the block `t` that moves it between the threads and the free blocks. -/
theorem move (h : s.Inv S free) {k' : Kernel} {live' free' : List Ptr} {t : Ptr}
    (hs : TableStep s.kernel k' t) (hmem : ∀ p, p ≠ t → (p ∈ live' ↔ p ∈ s.live))
    (hsub : ∀ p ∈ free', p ≠ t → p ∈ free) (hc : Chain k'.link 0 k'.tcbList free')
    (hpage : ∃ j < k'.paging.pmmTaken, S.page j = t) (hdead : t ∈ free' → t ∉ live')
    (hnd : live'.Nodup)
    (hin : ∀ i < tcbLimit, k'.tableEntry i = t → t ∈ live' ∧ (k'.tcb t).id = BitVec.ofNat 32 i)
    (hold : ∀ i < tcbLimit, k'.tableEntry i ≠ t → k'.tableEntry i ≠ 0 →
      k'.tableEntry i = s.kernel.tableEntry i)
    (hkeep : ∀ i < tcbLimit, s.kernel.tableEntry i ≠ t → s.kernel.tableEntry i ≠ 0 →
      k'.tableEntry i = s.kernel.tableEntry i)
    (ht : t ∈ live' → t ≠ 0 ∧ (∃ i < tcbLimit, k'.tableEntry i = t) ∧
      k'.state t ≠ tcbStateFree)
    (hz : k'.tableEntry 0 = 0) (hlock : k'.tcbTableLock = false) :
    Inv S ⟨k', live'⟩ free' where
  chain := hc
  page p hp := by
    by_cases he : p = t
    · exact he ▸ hpage
    · obtain ⟨j, hj, hjp⟩ := h.page p (hp.imp (hmem p he).mp fun hm => hsub p hm he)
      exact ⟨j, hj.trans_le hs.taken, hjp⟩
  dead p hp := by
    by_cases he : p = t
    · rw [he] at hp ⊢
      exact hdead hp
    · exact fun hl => h.dead p (hsub p hp he) ((hmem p he).mp hl)
  nodup := hnd
  entry i hi hne := by
    by_cases he : k'.tableEntry i = t
    · simp only [he]
      exact hin i hi he
    · have ho := hold i hi he hne
      simp only [Table.id]
      rw [hs.tcb _ he, hmem _ he, ho]
      exact h.entry i hi (ho ▸ hne)
  live p hp := by
    by_cases he : p = t
    · exact ⟨he ▸ (ht (he ▸ hp)).1, he ▸ (ht (he ▸ hp)).2.1⟩
    · obtain ⟨hne, i, hi, rfl⟩ := h.live p ((hmem p he).mp hp)
      exact ⟨hne, i, hi, hkeep i hi he hne⟩
  entry_zero := hz
  state p hp := by
    by_cases he : p = t
    · exact he ▸ (ht (he ▸ hp)).2.2
    · change k'.state p ≠ _
      rw [hs.state_eq he]
      exact h.state p ((hmem p he).mp hp)
  lock := hlock

/-- No slot but its own holds a thread. -/
theorem slot_unique (h : s.Inv S free) (hp : p ∈ s.live) {i j : ℕ} (hi : i < tcbLimit)
    (hj : j < tcbLimit) (hip : s.kernel.tableEntry i = p) (hjp : s.kernel.tableEntry j = p) :
    i = j := by
  have hne := (h.live p hp).1
  have hi' := (h.entry i hi (hip ▸ hne)).2
  have hj' := (h.entry j hj (hjp ▸ hne)).2
  rw [hip] at hi'
  rw [hjp, hi'] at hj'
  have he := congrArg BitVec.toNat hj'
  simp only [BitVec.toNat_ofNat, tcbLimit] at he hi hj
  omega

/-- The step lemma for tcb_del. -/
theorem del (h : s.Inv S free) (hp : p ∈ s.live) :
    Inv S ⟨tcbDel s.kernel p, s.live.erase p⟩ (p :: free) := by
  obtain ⟨hne, -⟩ := h.live p hp
  obtain ⟨i, hpos, hi, hip, hid⟩ := h.slot hp
  have hr := tcbDel_removed hne (h.state p hp) hi hid hip
  have hout : ∀ j < tcbLimit, (tcbDel s.kernel p).tableEntry j ≠ p := by
    intro j hj
    rw [hr.table]
    by_cases hji : j = i
    · rw [hji, Function.update_self]
      exact hne.symm
    · rw [Function.update_of_ne hji]
      exact fun hjp => hji (h.slot_unique hp hj hi hjp hip)
  have hgone : p ∉ s.live.erase p := fun hm => (h.nodup.mem_erase_iff.mp hm).1 rfl
  obtain ⟨j, hj, hjp⟩ := h.page p (Or.inl hp)
  refine h.move hr.step (fun q hq => ?_) (fun q hq hqp => ?_) ?_ ⟨j, hj.trans_le hr.step.taken, hjp⟩
    (fun _ => hgone) (h.nodup.erase p) (fun j hj hjp => absurd hjp (hout j hj))
    (fun j _ _ hj0 => ?_) (fun j _ hjp _ => ?_) (fun hm => absurd hm hgone) ?_ hr.lock
  · rw [h.nodup.mem_erase_iff, and_iff_right hq]
  · exact (List.mem_cons.mp hq).resolve_left hqp
  · rw [hr.list, Chain.cons_iff, hr.link]
    refine ⟨rfl, hne, h.chain.congr fun q hq => congrArg Tcb.word0 (hr.step.tcb q ?_)⟩
    rintro rfl
    exact h.dead q hq hp
  · rw [hr.table] at hj0 ⊢
    apply Function.update_of_ne
    rintro rfl
    exact hj0 (Function.update_self ..)
  · rw [hr.table]
    apply Function.update_of_ne
    rintro rfl
    exact hjp hip
  · rw [hr.table, Function.update_of_ne hpos.ne]
    exact h.entry_zero

theorem paging (h : s.Inv S free) {q : Paging} (hq : s.kernel.paging.pmmTaken ≤ q.pmmTaken) :
    Inv S { s with kernel.paging := q } free where
  chain := h.chain
  page p hp := by
    obtain ⟨j, hj, hjp⟩ := h.page p hp
    exact ⟨j, hj.trans_le hq, hjp⟩
  dead := h.dead
  nodup := h.nodup
  entry := h.entry
  live := h.live
  entry_zero := h.entry_zero
  state := h.state
  lock := h.lock

/-- The step lemma for a holder's change. -/
theorem edit (h : s.Inv S free) {f : Tcb → Tcb} (hp : p ∈ s.live)
    (hid : (f (s.kernel.tcb p)).id = s.id p) (hst : (f (s.kernel.tcb p)).state ≠ tcbStateFree) :
    Inv S { s with kernel := s.kernel.updTcb p f } free where
  chain := by
    refine h.chain.congr fun q hq => congrArg Tcb.word0 (Kernel.updTcb_of_ne _ _ _ _ ?_)
    rintro rfl
    exact h.dead q hq hp
  page := h.page
  dead := h.dead
  nodup := h.nodup
  entry i hi hne := by
    obtain ⟨hm, he⟩ := h.entry i hi hne
    refine ⟨hm, ?_⟩
    simp only [Table.id, Kernel.updTcb_tcb]
    change (if s.kernel.tableEntry i = p then _ else s.kernel.tcb (s.kernel.tableEntry i)).id = _
    split_ifs with hip
    · rw [hid, ← hip, he]
    · exact he
  live := h.live
  entry_zero := h.entry_zero
  state q hq := by
    rw [Kernel.state, Kernel.updTcb_tcb]
    split_ifs
    · exact hst
    · exact h.state q hq
  lock := h.lock

/-- The block `t` has been taken; the free blocks that are left are `rest`. -/
structure Fresh (S : PageSource) (s : Table) (free rest : List Ptr) (k₁ : Kernel) (t : Ptr) :
    Prop where
  ne_zero : t ≠ 0
  step : TableStep s.kernel k₁ t
  table : k₁.tableEntry = s.kernel.tableEntry
  chain : Chain k₁.link 0 k₁.tcbList rest
  page : ∃ j < k₁.paging.pmmTaken, S.page j = t
  not_live : t ∉ s.live
  not_rest : t ∉ rest
  split : free = t :: rest ∨ free = [] ∧ rest = []

theorem Fresh.mem_iff {rest : List Ptr} {k₁ : Kernel} {t : Ptr} (ht : Fresh S s free rest k₁ t) :
    p ∈ t :: rest ↔ p ∈ free ∨ p = t := by
  rcases ht.split with rfl | ⟨rfl, rfl⟩
  · rw [List.mem_cons]
    tauto
  · simp

theorem Fresh.sub {rest : List Ptr} {k₁ : Kernel} {t : Ptr} (ht : Fresh S s free rest k₁ t)
    (hp : p ∈ rest) : p ∈ free := by
  rcases ht.split with rfl | ⟨-, rfl⟩
  · exact List.mem_cons_of_mem _ hp
  · simp at hp

theorem alloc (h : s.Inv S free) :
    ((tcbAlloc S s.kernel).1 = 0 ∧
      (tcbAlloc S s.kernel).2 = { s.kernel with paging := (pgeAlloc S s.kernel.paging).2 } ∧
      S.page s.kernel.paging.pmmTaken = 0) ∨
    ∃ rest, Fresh S s free rest (tcbAlloc S s.kernel).2 (tcbAlloc S s.kernel).1 := by
  rcases tcbAlloc_cases S s.kernel h.chain with
    hz | ⟨rest, hne, hs, htab, hc, rfl | ⟨rfl, rfl, hpage, htaken⟩⟩
  · exact Or.inl hz
  · have hmem := List.mem_cons_self (a := (tcbAlloc S s.kernel).1) (l := rest)
    obtain ⟨j, hj, he⟩ := h.page _ (Or.inr hmem)
    exact Or.inr ⟨rest, hne, hs, htab, hc, ⟨j, hj.trans_le hs.taken, he⟩, h.dead _ hmem,
      (List.nodup_cons.mp h.chain.nodup).1, Or.inl rfl⟩
  · refine Or.inr ⟨[], hne, hs, htab, hc, ⟨_, by omega, hpage⟩, fun hl => ?_, by simp,
      Or.inr ⟨rfl, rfl⟩⟩
    obtain ⟨j, hj, he⟩ := h.page _ (Or.inl hl)
    have := S.fresh j s.kernel.paging.pmmTaken (he.trans hpage.symm) (by rwa [he])
    omega

/-- The block that tcb_new could not enter is free again. -/
theorem freed (h : s.Inv S free) {rest : List Ptr} {k₁ k' : Kernel} {t : Ptr}
    (ht : Fresh S s free rest k₁ t) (hf : Freed k₁ k' t) (hlock : k'.tcbTableLock = false) :
    Inv S ⟨k', s.live⟩ (t :: rest) := by
  have htab := hf.table.trans ht.table
  have hout : ∀ i < tcbLimit, s.kernel.tableEntry i ≠ t := fun i hi he =>
    ht.not_live (he ▸ (h.entry i hi (he ▸ ht.ne_zero)).1)
  obtain ⟨j, hj, hjt⟩ := ht.page
  refine h.move (ht.step.trans hf.step) (fun _ _ => Iff.rfl) (fun p hp hpt => ?_) ?_
    ⟨j, hj.trans_le hf.step.taken, hjt⟩ (fun _ => ht.not_live) h.nodup
    (fun i hi he => absurd (htab ▸ he) (hout i hi)) (fun i _ _ _ => congrFun htab i)
    (fun i _ _ _ => congrFun htab i) (fun hm => absurd hm ht.not_live) ?_ hlock
  · exact ht.sub ((List.mem_cons.mp hp).resolve_left hpt)
  · rw [hf.list, Chain.cons_iff, hf.link]
    refine ⟨rfl, ht.ne_zero, ht.chain.congr fun p hp => congrArg Tcb.word0 (hf.step.tcb p ?_)⟩
    rintro rfl
    exact ht.not_rest hp
  · rw [htab]
    exact h.entry_zero

/-- The block that tcb_new enters is a thread. -/
theorem entered (h : s.Inv S free) {rest : List Ptr} {k₁ k' : Kernel} {t : Ptr} {i : ℕ}
    (ht : Fresh S s free rest k₁ t) (he : Entered k₁ k' t i) (hlock : k'.tcbTableLock = false) :
    Inv S ⟨k', t :: s.live⟩ rest := by
  have htab : k'.tableEntry = Function.update s.kernel.tableEntry i t := by
    rw [he.table, ht.table]
  have hz : s.kernel.tableEntry i = 0 := by
    rw [← ht.table]
    exact he.empty
  have hout : ∀ i < tcbLimit, s.kernel.tableEntry i ≠ t := fun i hi he =>
    ht.not_live (he ▸ (h.entry i hi (he ▸ ht.ne_zero)).1)
  obtain ⟨j, hj, hjt⟩ := ht.page
  refine h.move (ht.step.trans he.step) (fun p hp => ?_) (fun p hp _ => ht.sub hp) ?_
    ⟨j, hj.trans_le he.step.taken, hjt⟩ (fun hm => absurd hm ht.not_rest)
    (List.nodup_cons.mpr ⟨ht.not_live, h.nodup⟩) (fun j hj hjt => ⟨List.mem_cons_self .., ?_⟩)
    (fun j hj hjt _ => ?_) (fun j hj _ hj0 => ?_)
    (fun _ => ⟨ht.ne_zero, ⟨i, he.lt, ?_⟩, ?_⟩) ?_ hlock
  · rw [List.mem_cons, or_iff_right hp]
  · rw [he.list]
    refine ht.chain.congr fun p hp => congrArg Tcb.word0 (he.step.tcb p ?_)
    rintro rfl
    exact ht.not_rest hp
  · by_cases hji : j = i
    · rw [hji]
      exact he.id
    · rw [htab, Function.update_of_ne hji] at hjt
      exact absurd hjt (hout j hj)
  · rw [htab] at hjt ⊢
    apply Function.update_of_ne
    rintro rfl
    exact hjt (Function.update_self ..)
  · rw [htab]
    apply Function.update_of_ne
    rintro rfl
    exact hj0 hz
  · rw [htab, Function.update_self]
  · rw [he.state]
    decide
  · rw [htab, Function.update_of_ne he.pos.ne]
    exact h.entry_zero

/-- The step lemma for tcb_new: it returns the next thread under the first free id, or NULL. -/
theorem new (h : s.Inv S free) :
    ((tcbNew S s.kernel).1 = 0 ∧ s.Refused S (tcbNew S s.kernel).2 ∧
      ∃ free', Inv S ⟨(tcbNew S s.kernel).2, s.live⟩ free') ∨
    ((tcbNew S s.kernel).1 ≠ 0 ∧ (tcbNew S s.kernel).1 ∉ s.live ∧
      IsLeast s.freeIds ((tcbNew S s.kernel).2.tcb (tcbNew S s.kernel).1).id.toNat ∧
      ∃ free', Inv S ⟨(tcbNew S s.kernel).2, (tcbNew S s.kernel).1 :: s.live⟩ free') := by
  rcases h.alloc with ⟨h0, hk, hpage⟩ | ⟨rest, ht⟩
  · have hnew : tcbNew S s.kernel =
        (0, { s.kernel with paging := (pgeAlloc S s.kernel.paging).2 }) := by
      simp only [tcbNew, h0, if_true, hk]
    rw [hnew]
    refine Or.inl ⟨rfl, ⟨Or.inr ⟨_, le_rfl, Nat.lt_succ_self _, hpage⟩, fun _ => rfl,
      fun _ _ => rfl, ⟨free, h.chain, fun p => ?_⟩, h.lock⟩, free, h.paging (Nat.le_succ _)⟩
    rw [h.chain.mem_iff_meets, h0]
    exact ⟨Or.inl, fun hp => hp.resolve_right fun hp => hp.1 hp.2⟩
  · generalize hr : tcbAlloc S s.kernel = r at ht
    have hnew : tcbNew S s.kernel =
        tcbNewFrom S r.1 (tcbLimit - 1) { r.2 with tcbTableLock := true } := by
      rw [tcbNew, hr]
      exact if_neg ht.ne_zero
    have htl : Fresh S s free rest { r.2 with tcbTableLock := true } r.1 :=
      ⟨ht.ne_zero, ht.step.lock true, ht.table, ht.chain, ht.page, ht.not_live, ht.not_rest,
        ht.split⟩
    have hlock := tcbNewFrom_lock S r.1 (tcbLimit - 1) { r.2 with tcbTableLock := true }
    have hvac : ∀ i, 1 ≤ i → i < tcbLimit → r.2.tableEntry i ≠ 0 → ¬ s.Vacant i := by
      intro i _ hi hne
      rw [h.vacant_iff hi, ← ht.table]
      exact hne
    rcases tcbNewFrom_search S r.1 (n := tcbLimit - 1) (by decide)
      { r.2 with tcbTableLock := true } with ⟨h0, hf, hwhy⟩ | ⟨h1, i, he, hfirst⟩
    · rw [← hnew] at h0 hf hwhy hlock
      have hinv := h.freed htl hf hlock
      refine Or.inl ⟨h0, ⟨?_, fun i => ?_, fun p hp => ?_, ⟨_, hinv.chain, fun p => ?_⟩,
        hlock⟩, _, hinv⟩
      · rcases hwhy with hfull | ⟨j, hj1, hj2, hj3⟩
        · exact Or.inl fun i h1 h2 => hvac i h1 (by simp only [tcbLimit]; omega)
            (hfull i h1 (by simp only [tcbLimit]; omega))
        · exact Or.inr ⟨j, htl.step.taken.trans hj1, hj2, hj3⟩
      · simp only [tcbGet, hf.table.trans htl.table]
      · refine (hf.step.tcb p ?_).trans (htl.step.tcb p ?_) <;>
        · rintro rfl
          exact htl.not_live hp
      · rw [htl.mem_iff, h.chain.mem_iff_meets, hr]
        refine or_congr_right ⟨?_, And.right⟩
        rintro rfl
        exact ⟨htl.ne_zero, rfl⟩
    · rw [← hnew] at h1 he hlock
      have hinv := h.entered htl he hlock
      rw [h1]
      have hid : ((tcbNew S s.kernel).2.tcb r.1).id.toNat = i := by
        have hi := he.lt
        rw [he.id, BitVec.toNat_ofNat]
        simp only [tcbLimit] at hi
        omega
      rw [hid]
      have hi := he.lt
      simp only [tcbLimit] at hi
      refine Or.inr ⟨htl.ne_zero, htl.not_live, ⟨⟨he.pos, by omega, ?_⟩, fun j hj => ?_⟩, _, hinv⟩
      · rw [h.vacant_iff he.lt, ← htl.table]
        exact he.empty
      · by_contra hlt
        exact hvac j hj.1 (by simp only [tcbLimit]; omega) (hfirst j hj.1 (by omega)) hj.2.2

theorem step {s' : Table} {e : TableOp} (h : ∃ free, s.Inv S free) (hs : s.step S e = some s') :
    ∃ free, s'.Inv S free := by
  obtain ⟨free, h⟩ := h
  cases e with
  | new =>
    simp only [Table.step, Option.some.injEq] at hs
    subst hs
    rcases h.new with ⟨h0, -, hf⟩ | ⟨h0, -, -, hf⟩
    · rwa [if_pos h0]
    · rwa [if_neg h0]
  | del p =>
    obtain ⟨hp, hs⟩ := Option.ite_none_right_eq_some.mp hs
    obtain rfl := Option.some.inj hs
    exact ⟨_, h.del hp⟩
  | page =>
    obtain rfl := Option.some.inj hs
    exact ⟨_, h.paging (Nat.le_succ _)⟩
  | edit p f =>
    obtain ⟨⟨hp, hid, hst⟩, hs⟩ := Option.ite_none_right_eq_some.mp hs
    obtain rfl := Option.some.inj hs
    exact ⟨_, h.edit hp hid hst⟩

theorem faithful (h : s.Inv S free) : s.Faithful S where
  distinct := by
    refine h.nodup.map_on fun p hp q hq he => ?_
    obtain ⟨i, -, -, rfl, hi⟩ := h.slot hp
    obtain ⟨j, -, -, rfl, hj⟩ := h.slot hq
    rw [← hi, ← hj, he]
  range p hp := by
    obtain ⟨i, hpos, hi, -, hid⟩ := h.slot hp
    simp only [tcbLimit] at hi
    omega
  get p hp := by
    obtain ⟨i, -, hi, hip, hid⟩ := h.slot hp
    refine ⟨(h.live p hp).1, ?_⟩
    rw [tcbGet, hid, if_neg (not_le.mpr hi), hip]
  get_none i hi := by
    rw [tcbGet]
    split_ifs with hlt
    · rfl
    · by_contra hne
      obtain ⟨hm, hid⟩ := h.entry _ (not_le.mp hlt) hne
      refine hi _ hm (hid.trans ?_)
      simp
  new h0 := by
    rcases h.new with ⟨h1, -⟩ | ⟨-, h1, h2, -⟩
    · exact absurd h1 h0
    · exact ⟨h1, h2⟩
  refused h0 := by
    rcases h.new with ⟨-, h1, -⟩ | ⟨h1, -⟩
    · exact h1
    · exact absurd h0 h1

end Inv
end Table

/-- From the empty table on, whatever is created and deleted and whichever allocations fail, the
table is a map from the ids in use to the threads that have them. -/
theorem tcb_table_faithful (S : PageSource) {s₀ s : Table} (h0 : s₀.Empty)
    (h : Run (Table.step S) Free s₀ s) : s.Faithful S := by
  obtain ⟨free, hs⟩ : ∃ free, s.Inv S free :=
    h.invariant ⟨[], .empty h0⟩ fun _ _ _ ha _ hb => Table.Inv.step ha hb
  exact hs.faithful

theorem tcb_table_faithful_reused :
    ∃ s, exec (Table.step lowPlatform.pages) ⟨lowBoot.start, []⟩
      [.new, .new, .del (tcbNew lowPlatform.pages lowBoot.start).1, .new] = some s ∧
      s.Faithful lowPlatform.pages :=
  Run.after_exec (by decide +kernel) fun _ h =>
    tcb_table_faithful lowPlatform.pages ⟨rfl, fun _ => rfl, rfl, rfl⟩ h

end Pinion64
