import Pinion64.RunQueue
import Pinion64.TcbTable

/-! The invariant that ties the run queue, the states, the thread table, the free list and the
routes together, and how the kernel's elementary steps keep it. -/
namespace Pinion64
open Intrusive

namespace Kernel

/-- Allocated and not reaped: the thread table refers to the block. -/
def Live (k : Kernel) (p : Ptr) : Prop := p ≠ 0 ∧ ∃ i < tcbLimit, k.tableEntry i = p

/-- The block has come from the page allocator. -/
def Page (P : Platform) (k : Kernel) (p : Ptr) : Prop :=
  ∃ j < k.paging.pmmTaken, P.pages.page j = p

end Kernel

/-- `run` lists the run queue and `free` the free list of blocks. -/
structure Coherent (P : Platform) (k : Kernel) (run free : List Ptr) : Prop where
  fifo : Fifo k.next 0 k.scheduleHead k.scheduleTail run
  queued : ∀ p, p ∈ run ↔ (k.Live p ∨ p = P.idleTcb) ∧ k.state p = tcbStateQueued
  chain : Chain k.link 0 k.tcbList free
  page : ∀ p, k.Live p ∨ p ∈ free → k.Page P p
  dead : ∀ p ∈ free, ¬ k.Live p
  id : ∀ i < tcbLimit, k.tableEntry i ≠ 0 → (k.tcb (k.tableEntry i)).id = BitVec.ofNat 32 i
  entry_zero : k.tableEntry 0 = 0
  idle_id : (k.tcb P.idleTcb).id = 0
  route : ∀ vec, vectorPage vec < 128 → ∀ r, k.routeOf vec = some r → ∀ i,
    r i = 0 ∨ k.Live (r i) ∨ r i ∈ free
  active : k.activeTcb = 0 ∨ (k.Live k.activeTcb ∨ k.activeTcb = P.idleTcb) ∧
    k.state k.activeTcb ≠ tcbStateQueued

namespace Coherent

variable {P : Platform} {k k' : Kernel} {run free : List Ptr} {t p : Ptr}

section Facts

theorem ne_zero (hp : k.Live p ∨ p = P.idleTcb) : p ≠ 0 := by
  rcases hp with hp | rfl
  · exact hp.1
  · exact P.idle_ne

theorem live_ne_idle (h : Coherent P k run free) (hp : k.Live p) : p ≠ P.idleTcb := by
  rintro rfl
  obtain ⟨j, -, hj⟩ := h.page _ (Or.inl hp)
  exact P.idle_page j hj

theorem free_ne_zero (h : Coherent P k run free) (hp : p ∈ free) : p ≠ 0 := by
  rintro rfl
  exact h.chain.2 hp

theorem free_ne_idle (h : Coherent P k run free) (hp : p ∈ free) : p ≠ P.idleTcb := by
  rintro rfl
  obtain ⟨j, -, hj⟩ := h.page _ (Or.inr hp)
  exact P.idle_page j hj

theorem not_free (h : Coherent P k run free) (hp : k.Live p ∨ p = P.idleTcb) : p ∉ free := by
  intro hf
  rcases hp with hp | rfl
  · exact h.dead p hf hp
  · exact h.free_ne_idle hf rfl

theorem mem_run (h : Coherent P k run free) (hp : p ∈ run) : k.Live p ∨ p = P.idleTcb :=
  ((h.queued p).mp hp).1

theorem not_mem_run (h : Coherent P k run free) (hs : k.state p ≠ tcbStateQueued) : p ∉ run :=
  fun hp => hs ((h.queued p).mp hp).2

theorem active_not_mem (h : Coherent P k run free) (ha : k.activeTcb ≠ 0) :
    k.activeTcb ∉ run := h.not_mem_run (h.active.resolve_left ha).2

/-- The link that a block on the free list holds is no waiting state. -/
theorem free_state (h : Coherent P k run free) (hp : p ∈ free) :
    k.state p ≠ tcbStateWaiting ∧ k.state p ≠ tcbStateSuspendedWaiting := by
  have hw : (k.tcb p).word0 ≠ 0 → base ≤ (k.tcb p).word0 := by
    intro h0
    obtain ⟨a, b, rfl⟩ := List.append_of_mem hp
    obtain ⟨c, hc⟩ := h.chain.suffix
    obtain ⟨rfl, -, hb⟩ := Chain.cons_iff.mp hc
    obtain ⟨m, rfl, -⟩ := hb.exists_cons h0
    obtain ⟨j, -, hj⟩ := h.page (k.link c) (Or.inr (by simp))
    have hw := P.pages.window j (hj ▸ h0)
    rw [hj] at hw
    exact hw
  have hs := Tcb.setWord0_state (k.tcb p) hw
  have he : ((k.tcb p).setWord0 (k.tcb p).word0).state = (k.tcb p).state := by
    have h2 : ((k.tcb p).setWord0 (k.tcb p).word0).word0 = (k.tcb p).word0 :=
      Tcb.word0_setWord0 ..
    apply BitVec.eq_of_getLsbD_eq
    intro i hi
    have hb := congrArg (fun w : Word => w.getLsbD (16+i)) h2
    generalize (k.tcb p).setWord0 (k.tcb p).word0 = b at hb ⊢
    simp only [Tcb.word0, BitVec.getLsbD_append] at hb
    simpa [show ¬ 16 + i < 16 by omega, hi] using hb
  rwa [he] at hs

/-- A waiting block that a route names is live. -/
theorem routed_live (h : Coherent P k run free) {vec : BitVec 16} {r : Fin 4 → Ptr} {i : Fin 4}
    (hv : vectorPage vec < 128) (hr : k.routeOf vec = some r) (hne : r i ≠ 0)
    (hs : k.state (r i) = tcbStateWaiting ∨ k.state (r i) = tcbStateSuspendedWaiting) :
    k.Live (r i) := by
  rcases (h.route vec hv r hr i).resolve_left hne with hl | hf
  · exact hl
  · obtain ⟨h1, h2⟩ := h.free_state hf
    rcases hs with hs | hs
    · exact absurd hs h1
    · exact absurd hs h2

/-- A live thread is found under its id. -/
theorem get_id (h : Coherent P k run free) (hp : k.Live p) : tcbGet k (k.tcb p).id = p := by
  obtain ⟨hne, i, hi, rfl⟩ := hp
  rw [h.id i hi hne, tcbGet]
  simp only [tcbLimit] at hi
  have ht : (BitVec.ofNat 32 i).toNat = i := by
    rw [BitVec.toNat_ofNat]
    omega
  rw [ht, if_neg (by simp only [tcbLimit]; omega)]

/-- The id tells the blocks of threads and the idle block apart. -/
theorem id_inj (h : Coherent P k run free) (hp : k.Live p ∨ p = P.idleTcb)
    (ht : k.Live t ∨ t = P.idleTcb) (he : (k.tcb p).id = (k.tcb t).id) : p = t := by
  have hzero : ∀ {x}, k.Live x → (k.tcb x).id ≠ 0 := by
    intro x hx h0
    have hget := h.get_id hx
    rw [h0] at hget
    exact hx.1 (hget.symm.trans h.entry_zero)
  rcases hp with hp | rfl <;> rcases ht with ht | rfl
  · rw [← h.get_id hp, he, h.get_id ht]
  · exact absurd (he.trans h.idle_id) (hzero hp)
  · exact absurd (he.symm.trans h.idle_id) (hzero ht)
  · rfl

theorem get_live {i : BitVec 32} (hp : tcbGet k i ≠ 0) : k.Live (tcbGet k i) := by
  unfold tcbGet at hp ⊢
  split_ifs at hp ⊢ with hi
  · exact absurd rfl hp
  · exact ⟨hp, _, not_le.mp hi, rfl⟩

end Facts

/-- Another run queue over the same table and free list. -/
theorem requeue (h : Coherent P k run free) {run' : List Ptr}
    (hq : Fifo k'.next 0 k'.scheduleHead k'.scheduleTail run')
    (hm : ∀ p ∈ run', k.Live p ∨ p = P.idleTcb)
    (hs : ∀ p, k.Live p ∨ p = P.idleTcb → (p ∈ run' ↔ k'.state p = tcbStateQueued))
    (hl : ∀ p ∈ free, k'.link p = k.link p)
    (hi : ∀ p, k.Live p ∨ p = P.idleTcb → (k'.tcb p).id = (k.tcb p).id)
    (hf : k'.tcbList = k.tcbList) (htab : k'.tableEntry = k.tableEntry)
    (hp : k.paging.pmmTaken ≤ k'.paging.pmmTaken)
    (hr : ∀ vec, vectorPage vec < 128 → k'.routeOf vec = k.routeOf vec)
    (ha : k'.activeTcb = 0 ∨ (k.Live k'.activeTcb ∨ k'.activeTcb = P.idleTcb) ∧
      k'.state k'.activeTcb ≠ tcbStateQueued) : Coherent P k' run' free := by
  have hlive : ∀ p, k'.Live p ↔ k.Live p := fun p => by simp only [Kernel.Live, htab]
  constructor
  · exact hq
  · intro p
    rw [hlive]
    exact ⟨fun hp => ⟨hm p hp, (hs p (hm p hp)).mp hp⟩, fun ⟨h1, h2⟩ => (hs p h1).mpr h2⟩
  · rw [hf]
    exact h.chain.congr hl
  · intro p hpp
    rw [hlive] at hpp
    obtain ⟨j, hj, he⟩ := h.page p hpp
    exact ⟨j, hj.trans_le hp, he⟩
  · intro p hpf
    rw [hlive]
    exact h.dead p hpf
  · intro i hlt hne
    rw [htab] at hne ⊢
    rw [hi _ (Or.inl ⟨hne, i, hlt, rfl⟩)]
    exact h.id i hlt hne
  · rw [htab]
    exact h.entry_zero
  · rw [hi _ (Or.inr rfl)]
    exact h.idle_id
  · intro vec hv r hrr i
    rw [hr vec hv] at hrr
    rw [hlive]
    exact h.route vec hv r hrr i
  · rw [hlive]
    exact ha

/-- The same run queue, with the same states. -/
theorem congr (h : Coherent P k run free) (hn : ∀ p ∈ run, k'.next p = k.next p)
    (hs : ∀ p, k.Live p ∨ p = P.idleTcb → k'.state p = k.state p)
    (hl : ∀ p ∈ free, k'.link p = k.link p)
    (hi : ∀ p, k.Live p ∨ p = P.idleTcb → (k'.tcb p).id = (k.tcb p).id)
    (hh : k'.scheduleHead = k.scheduleHead) (ht : k'.scheduleTail = k.scheduleTail)
    (hf : k'.tcbList = k.tcbList) (htab : k'.tableEntry = k.tableEntry)
    (hp : k.paging.pmmTaken ≤ k'.paging.pmmTaken)
    (hr : ∀ vec, vectorPage vec < 128 → k'.routeOf vec = k.routeOf vec)
    (ha : k'.activeTcb = 0 ∨ k'.activeTcb = k.activeTcb) : Coherent P k' run free := by
  refine h.requeue ?_ (fun p => h.mem_run) (fun p hpp => ?_) hl hi hf htab hp hr ?_
  · rw [hh, ht]
    exact h.fifo.congr hn
  · rw [hs p hpp, h.queued]
    exact and_iff_right hpp
  · rcases ha with ha | ha
    · exact Or.inl ha
    · rw [ha]
      rcases h.active with h0 | ⟨h1, h2⟩
      · exact Or.inl h0
      · refine Or.inr ⟨h1, ?_⟩
        rw [hs _ h1]
        exact h2

/-- A change of fields that the lists and the table do not depend on. -/
theorem updTcb (h : Coherent P k run free) (q : Ptr) (f : Tcb → Tcb)
    (hf : ∀ b, (f b).next = b.next ∧ (f b).state = b.state ∧ (f b).word0 = b.word0 ∧
      (f b).id = b.id) : Coherent P (k.updTcb q f) run free :=
  h.congr (fun p _ => k.updTcb_proj q p f Tcb.next fun b => (hf b).1)
    (fun p _ => k.updTcb_proj q p f Tcb.state fun b => (hf b).2.1)
    (fun p _ => k.updTcb_proj q p f Tcb.word0 fun b => (hf b).2.2.1)
    (fun p _ => k.updTcb_proj q p f Tcb.id fun b => (hf b).2.2.2)
    rfl rfl rfl rfl le_rfl (fun _ _ => rfl) (Or.inr rfl)

theorem paging (h : Coherent P k run free) {p : Paging} (hp : k.paging.pmmTaken ≤ p.pmmTaken) :
    Coherent P { k with paging := p } run free :=
  h.congr (fun _ _ => rfl) (fun _ _ => rfl) (fun _ _ => rfl) (fun _ _ => rfl) rfl rfl rfl rfl hp
    (fun _ _ => rfl) (Or.inr rfl)

/-- A change of state outside the run queue. -/
theorem shift (h : Coherent P k run free) {s : BitVec 16} (ht : k.Live t)
    (hold : k.state t ≠ tcbStateQueued) (hs : s ≠ tcbStateQueued) :
    Coherent P (k.setState t s) run free := by
  refine h.requeue ?_ (fun p => h.mem_run) (fun p hp => ?_) (fun p hp => ?_)
    (fun p _ => k.setState_id t p s) rfl rfl le_rfl (fun _ _ => rfl) ?_
  · rw [Kernel.setState_next]
    exact h.fifo
  · rw [Kernel.setState_state]
    split_ifs with he
    · subst he
      exact iff_of_false (h.not_mem_run hold) hs
    · rw [h.queued]
      exact and_iff_right hp
  · apply Kernel.setState_link
    rintro rfl
    exact h.dead p hp ht
  · rcases h.active with ha | ⟨h1, h2⟩
    · exact Or.inl ha
    · refine Or.inr ⟨h1, ?_⟩
      rw [Kernel.setState_state]
      split_ifs
      · exact hs
      · exact h2

/-- A block that is neither queued nor active is put at the end of the run queue. -/
theorem ready (h : Coherent P k run free) (ht : k.Live t ∨ t = P.idleTcb)
    (hold : k.state t ≠ tcbStateQueued) (ha : k.activeTcb ≠ t) :
    Coherent P ((schedulerPushTcb k t).setState t tcbStateQueued) (run ++ [t]) free := by
  have hfifo := h.fifo.push (ne_zero ht) (h.not_mem_run hold)
  rw [schedulerPushTcb_eq]
  generalize (if k.scheduleTail ≠ 0 then _ else _) = n at hfifo ⊢
  generalize (if k.scheduleTail ≠ 0 then k.scheduleHead else t) = hd at hfifo ⊢
  refine h.requeue ?_ (fun p hp => ?_) (fun p hp => ?_) (fun p hp => ?_)
    (fun p _ => (k.relink n hd t).setState_id t p _) rfl rfl le_rfl (fun _ _ => rfl) ?_
  · rw [Kernel.setState_next]
    exact hfifo
  · rcases List.mem_append.mp hp with hp | hp
    · exact h.mem_run hp
    · obtain rfl := List.mem_singleton.mp hp
      exact ht
  · rw [Kernel.setState_state, List.mem_append, List.mem_singleton]
    split_ifs with he
    · exact iff_of_true (Or.inr he) rfl
    · rw [h.queued, or_iff_left he]
      exact and_iff_right hp
  · refine (Kernel.setState_link _ _ _ _ ?_).trans rfl
    rintro rfl
    exact h.not_free ht hp
  · rcases h.active with h0 | ⟨h1, h2⟩
    · exact Or.inl h0
    · refine Or.inr ⟨h1, ?_⟩
      rw [Kernel.setState_state, if_neg (by exact ha)]
      exact h2

/-- A queued block leaves the run queue. -/
theorem block (h : Coherent P k run free) {s : BitVec 16} (ht : k.Live t)
    (hold : k.state t = tcbStateQueued) (hs : s ≠ tcbStateQueued) :
    ∃ k₁, schedulerRemTcb k t = some (0, k₁) ∧
      Coherent P (k₁.setState t s) (run.erase t) free ∧
      ∃ n hd tl, k₁ = k.relink n hd tl ∧ (hd = k.scheduleHead ∨ hd = k.next t) ∧
        ∀ p, n p = k.next p ∨ p ∈ run ∧ n p = k.next t := by
  have hmem : t ∈ run := (h.queued t).mpr ⟨Or.inl ht, hold⟩
  obtain ⟨n, hd, tl, hrem, hfifo, hhd, hn⟩ := schedulerRemTcb_eq h.fifo hmem
  refine ⟨_, hrem, ?_, n, hd, tl, rfl, hhd, hn⟩
  have hnd := h.fifo.1.nodup
  refine h.requeue ?_ (fun p hp => h.mem_run (List.mem_of_mem_erase hp)) (fun p hp => ?_)
    (fun p hp => ?_) (fun p _ => (k.relink n hd tl).setState_id t p _) rfl rfl le_rfl
    (fun _ _ => rfl) ?_
  · rw [Kernel.setState_next]
    exact hfifo
  · rw [Kernel.setState_state, hnd.mem_erase_iff]
    split_ifs with he
    · exact iff_of_false (fun hc => hc.1 he) hs
    · rw [h.queued, and_iff_right he]
      exact and_iff_right hp
  · refine (Kernel.setState_link _ _ _ _ ?_).trans rfl
    rintro rfl
    exact h.dead p hp ht
  · rcases h.active with h0 | ⟨h1, h2⟩
    · exact Or.inl h0
    · refine Or.inr ⟨h1, ?_⟩
      rw [Kernel.setState_state]
      split_ifs
      · exact hs
      · exact h2

theorem unload (h : Coherent P k run free) : Coherent P (ccbUnloadTcb k).2 run free := by
  unfold ccbUnloadTcb
  split_ifs with h0
  · exact h
  · have ha := (h.active.resolve_left h0).1
    let k₀ := { k with activeTcb := 0 }
    refine h.congr (fun p _ => ?_) (fun p _ => ?_) (fun p hp => ?_) (fun p _ => ?_) rfl rfl rfl rfl
      le_rfl (fun _ _ => rfl) (Or.inl rfl)
    · exact k₀.updTcb_proj k.activeTcb p Tcb.unlock Tcb.next fun _ => rfl
    · exact k₀.updTcb_proj k.activeTcb p Tcb.unlock Tcb.state fun _ => rfl
    · refine congrArg Tcb.word0 (k₀.updTcb_of_ne k.activeTcb p Tcb.unlock ?_)
      rintro rfl
      exact h.not_free ha hp
    · exact k₀.updTcb_proj k.activeTcb p Tcb.unlock Tcb.id fun _ => rfl

end Coherent

/-- On an idle core only the control block of the core changes. -/
theorem ccbLoadTcb_eq {k : Kernel} (tcb : Ptr) (h : k.activeTcb = 0) :
    ∃ pcx pcxId, (ccbLoadTcb k tcb).2 = { k with
      activeTcb := tcb, activePcx := pcx, activePcxId := pcxId, tssRsp0 := tcb + 0x100,
      tssIst1 := tcb + 0x100 } := by
  simp only [ccbLoadTcb, h, ne_eq, not_true_eq_false, if_false]
  split_ifs
  · exact ⟨_, _, rfl⟩
  · exact ⟨_, _, rfl⟩

namespace Coherent

variable {P : Platform} {k k' : Kernel} {run free : List Ptr} {t p : Ptr}

/-- The first block of the run queue becomes active. -/
theorem dispatch (h : Coherent P k (t :: run) free) (ha : k.activeTcb = 0) :
    Coherent P (ccbLoadTcb ((schedulerPullTcb k).2.setState t tcbStateRunning) t).2 run free := by
  obtain ⟨-, -, hfifo⟩ := h.fifo.pull
  rw [schedulerPullTcb_eq h.fifo]
  generalize (if k.scheduleTail = t then 0 else k.scheduleTail) = tl at hfifo ⊢
  have hnd := List.nodup_cons.mp h.fifo.1.nodup
  have ht := h.mem_run (List.mem_cons_self ..)
  let k₁ := k.relink k.next (k.next t) tl
  obtain ⟨pcx, pcxId, hload⟩ := ccbLoadTcb_eq (k := k₁.setState t tcbStateRunning) t ha
  have hst : ∀ p, (ccbLoadTcb (k₁.setState t tcbStateRunning) t).2.state p =
      if p = t then tcbStateRunning else k.state p := by
    intro p
    rw [hload]
    exact k₁.setState_state t p _
  refine h.requeue ?_ (fun p hp => h.mem_run (List.mem_cons_of_mem _ hp)) (fun p hp => ?_)
    (fun p hp => ?_) (fun p _ => ?_) ?_ ?_ ?_ (fun _ _ => ?_) (Or.inr ⟨?_, ?_⟩)
  · rw [hload]
    exact hfifo.congr fun p _ => congrFun (k₁.setState_next t tcbStateRunning) p
  · rw [hst]
    split_ifs with he
    · subst he
      exact iff_of_false hnd.1 (by decide)
    · have hq := h.queued p
      rw [List.mem_cons, or_iff_right he] at hq
      rw [hq]
      exact and_iff_right hp
  · rw [hload]
    refine (k₁.setState_link t p _ ?_).trans rfl
    rintro rfl
    exact h.not_free ht hp
  · rw [hload]
    exact k₁.setState_id t p _
  · rw [hload]
    rfl
  · rw [hload]
    rfl
  · rw [hload]
    exact le_rfl
  · rw [hload]
    rfl
  · rw [hload]
    exact ht
  · rw [hst, hload, if_pos rfl]
    decide

/-- With an empty run queue the idle block becomes active. -/
theorem inject (h : Coherent P k [] free) (ha : k.activeTcb = 0) :
    Coherent P (ccbLoadTcb k P.idleTcb).2 [] free := by
  obtain ⟨pcx, pcxId, hload⟩ := ccbLoadTcb_eq P.idleTcb ha
  rw [hload]
  refine h.requeue h.fifo (by simp) (fun p hp => ?_) (fun _ _ => rfl) (fun _ _ => rfl) rfl rfl
    le_rfl (fun _ _ => rfl) (Or.inr ⟨Or.inr rfl, fun hq => ?_⟩)
  · rw [h.queued]
    exact and_iff_right hp
  · have := (h.queued P.idleTcb).mpr ⟨Or.inr rfl, hq⟩
    simp at this

theorem report (h : Coherent P k run free) {q : TcbQueue} (hs : k.state t ≠ tcbStateQueued) :
    Coherent P (enqueue k q t) run free := by
  rw [enqueue_eq]
  refine h.congr (fun p hp => ?_) (fun _ _ => rfl) (fun _ _ => rfl) (fun _ _ => rfl) rfl rfl rfl rfl
    le_rfl (fun _ _ => rfl) (Or.inr rfl)
  apply Function.update_of_ne
  rintro rfl
  exact h.not_mem_run hs hp

theorem fetch (h : Coherent P k run free) (q : TcbQueue) :
    Coherent P (getQueued k q).2 run free := by
  simp only [getQueued]
  split_ifs
  · exact h.congr (fun _ _ => rfl) (fun _ _ => rfl) (fun _ _ => rfl) (fun _ _ => rfl) rfl rfl rfl
      rfl le_rfl (fun _ _ => rfl) (Or.inr rfl)
  · exact h

theorem setSlot (h : Coherent P k run free) (vec : BitVec 16) (i : Fin 4)
    (ht : t = 0 ∨ k.Live t) : Coherent P (k.setRoute vec i t) run free := by
  have hlive : ∀ p, (k.setRoute vec i t).Live p ↔ k.Live p := fun _ => Iff.rfl
  refine ⟨h.fifo, h.queued, h.chain, h.page, h.dead, h.id, h.entry_zero, h.idle_id, ?_, h.active⟩
  intro v hv r hr j
  rw [hlive]
  rw [Kernel.setRoute_routeOf] at hr
  split_ifs at hr
  · obtain ⟨r₀, hr₀, rfl⟩ := Option.map_eq_some_iff.mp hr
    by_cases hj : j = i
    · subst hj
      rw [Function.update_self]
      rcases ht with ht | ht
      · exact Or.inl ht
      · exact Or.inr (Or.inl ht)
    · rw [Function.update_of_ne hj]
      exact h.route v hv r₀ hr₀ j
  · exact h.route v hv r hr j

end Coherent
end Pinion64
