import Pinion64.Step

/-! The kernel as init leaves it: one thread, which is about to run. -/
namespace Pinion64
open Intrusive Transition

variable {P : Platform}

section Simplify

theorem updTcb_eq_self {k : Kernel} {p : Ptr} {f : Tcb → Tcb} (h : f (k.tcb p) = k.tcb p) :
    k.updTcb p f = k := by
  rw [Kernel.updTcb, h, Function.update_eq_self]

theorem setState_eq_self {k : Kernel} {p : Ptr} {s : BitVec 16} (h : k.state p = s) :
    k.setState p s = k := by
  apply updTcb_eq_self
  rw [← h]
  rfl

theorem setState_setState (k : Kernel) (p : Ptr) (s s' : BitVec 16) :
    (k.setState p s).setState p s' = k.setState p s' := k.updTcb_updTcb ..

end Simplify

/-- The kernel before the first thread is made. -/
def Boot.bare (b : Boot P) : Kernel :=
  interruptAddVectorPage P.pages
    (interruptAddVectorPage P.pages b.start 0x0080 ⟨some .pinion, none⟩) 0x0100
    ⟨some .irq, some .irq⟩

/-- The kernel steps of init behind the creation of the first thread `t`. -/
def BootMay (t : Ptr) : Effect → Prop
  | .ready p => p = t
  | .dispatch p => p = t
  | .paging _ => True
  | .regs .. => True
  | _ => False

/-- One thread runs, nothing is routed and nothing is reported. -/
structure Booted (P : Platform) (k : Kernel) : Prop where
  sound : Sound P k
  vectors : Vectors k
  active : k.activeTcb ≠ 0
  live : ∀ p, k.Live p ↔ p = k.activeTcb
  running : k.state k.activeTcb = tcbStateRunning
  idle : k.state P.idleTcb = tcbStateFree
  heads : ∀ q, k.queueHead q = 0
  routes : ∀ vec, vectorPage vec < 128 → ∀ r, k.routeOf vec = some r → ∀ i, r i = 0

namespace Boot

variable (b : Boot P)

/-- The block of the first thread. -/
def thread : Ptr := P.pages.page (b.paging.pmmTaken + 262)

theorem bare_taken : b.bare.paging.pmmTaken = b.paging.pmmTaken + 262 := by
  change (pcxInit P.pages b.paging).pmmTaken + 4 = _
  rw [pcxInit_taken]

theorem bare_pages : b.bare.vectorPageTable 1 = ⟨some fun _ _ => 0, some ⟨some .pinion, none⟩⟩ ∧
    b.bare.vectorPageTable 2 = ⟨some fun _ _ => 0, some ⟨some .irq, some .irq⟩⟩ ∧
    ∀ i < 128, i ≠ 1 → i ≠ 2 → b.bare.vectorPageTable i = ⟨none, none⟩ := by
  have h260 : P.pages.page ((pcxInit P.pages b.paging).pmmTaken + 2) ≠ 0 := by
    rw [pcxInit_taken]
    exact b.pages 260 (by decide)
  have h261 : P.pages.page ((pcxInit P.pages b.paging).pmmTaken + 3) ≠ 0 := by
    rw [pcxInit_taken]
    exact b.pages 261 (by decide)
  have htab : b.bare.vectorPageTable = Function.update (Function.update
      b.start.vectorPageTable (vectorPage 0x0080) ⟨some fun _ _ => 0, some ⟨some .pinion, none⟩⟩)
      (vectorPage 0x0100) ⟨some fun _ _ => 0, some ⟨some .irq, some .irq⟩⟩ := by
    have hinstall : ∀ (S : PageSource) (k : Kernel) v vt, S.page k.paging.pmmTaken ≠ 0 →
        (interruptAddVectorPage S k v vt).vectorPageTable =
          Function.update k.vectorPageTable (vectorPage v) ⟨some fun _ _ => 0, some vt⟩ := by
      intro S k v vt hp
      have hp' : (pgeAlloc S k.paging).1 ≠ 0 := hp
      simp only [interruptAddVectorPage]
      rw [if_neg hp']
    rw [bare, hinstall _ _ _ _ (by exact h261), hinstall _ _ _ _ (by exact h260)]
  rw [htab, show vectorPage 0x0080 = 1 by decide, show vectorPage 0x0100 = 2 by decide]
  refine ⟨?_, ?_, fun i hi h1 h2 => ?_⟩
  · rw [Function.update_of_ne (by decide), Function.update_self]
  · rw [Function.update_self]
  · rw [Function.update_of_ne h2, Function.update_of_ne h1]
    exact if_pos hi

theorem bare_vectors : Vectors b.bare :=
  ⟨⟨_, b.bare_pages.1⟩, ⟨_, b.bare_pages.2.1⟩, b.bare_pages.2.2⟩

theorem bare_routes (vec : BitVec 16) (hv : vectorPage vec < 128) (r : Fin 4 → Ptr)
    (hr : b.bare.routeOf vec = some r) (i : Fin 4) : r i = 0 := by
  obtain ⟨h1, h2, h3⟩ := b.bare_pages
  rw [Kernel.routeOf] at hr
  by_cases hv1 : vectorPage vec = 1
  · rw [hv1, h1] at hr
    obtain rfl := Option.some.inj hr
    rfl
  · by_cases hv2 : vectorPage vec = 2
    · rw [hv2, h2] at hr
      obtain rfl := Option.some.inj hr
      rfl
    · rw [h3 _ hv hv1 hv2] at hr
      exact absurd hr (by simp)

theorem bare_entry (i : ℕ) : b.bare.tableEntry i = 0 := rfl

theorem bare_idle : b.bare.tcb P.idleTcb = zeroTcb := Function.update_self ..

theorem bare_dead (p : Ptr) : ¬ b.bare.Live p := by
  rintro ⟨hne, i, -, rfl⟩
  exact hne (b.bare_entry i)

theorem bare_coherent : Coherent P b.bare [] [] where
  fifo := Fifo.empty
  queued p := by
    refine iff_of_false (by simp) ?_
    rintro ⟨hl | rfl, hs⟩
    · exact b.bare_dead p hl
    · rw [Kernel.state, b.bare_idle] at hs
      exact absurd hs (by decide)
  chain := Chain.nil_iff.mpr rfl
  page p hp := by
    rcases hp with hp | hp
    · exact absurd hp (b.bare_dead p)
    · exact absurd hp (by simp)
  dead p hp := absurd hp (by simp)
  id i _ hne := absurd (b.bare_entry i) hne
  entry_zero := b.bare_entry 0
  idle_id := by
    rw [b.bare_idle]
    rfl
  route vec hv r hr i := Or.inl (b.bare_routes vec hv r hr i)
  active := Or.inl rfl

/-- There is a page for the block of the first thread and one for its subtable. -/
theorem tcbNew_bare : (tcbNew P.pages b.bare).1 = b.thread ∧
    (tcbNew P.pages b.bare).2.state b.thread = tcbStateSuspended ∧
    ((tcbNew P.pages b.bare).2.tcb b.thread).id = 1 ∧
    (tcbNew P.pages b.bare).2.tableEntry 1 = b.thread := by
  have h262 : P.pages.page b.bare.paging.pmmTaken ≠ 0 := by
    rw [bare_taken]
    exact b.pages 262 (by decide)
  have h263 : P.pages.page (b.bare.paging.pmmTaken + 1) ≠ 0 := by
    rw [bare_taken]
    exact b.pages 263 (by decide)
  have hthread : P.pages.page b.bare.paging.pmmTaken = b.thread := by
    rw [bare_taken, thread]
  let k₁ : Kernel := { b.bare with
    paging := (pgeAlloc P.pages b.bare.paging).2 }.updTcb b.thread fun t => t.setWord0 0
  let k₂ : Kernel := { k₁ with tcbList := k₁.link b.thread, tcbTableLock := true }
  have halloc : tcbAlloc P.pages b.bare = (b.thread, { k₁ with tcbList := k₁.link b.thread }) := by
    have hlist : b.bare.tcbList = 0 := rfl
    rw [hthread] at h262
    simp only [tcbAlloc, hlist, pgeAlloc, ne_eq, not_true_eq_false, if_false, hthread]
    rw [if_neg h262]
    rfl
  have hsub : tcbSubtable P.pages k₂ 1 = (true, { k₂ with
      paging := (pgeAlloc P.pages k₂.paging).2,
      tcbTable := Function.update k₂.tcbTable 0 (some fun _ => 0) }) := by
    have hn : k₂.tcbTable (1 / 512) = none := rfl
    simp only [tcbSubtable, hn, pgeAlloc]
    exact if_neg h263
  rw [hthread] at h262
  have hnew : tcbNew P.pages b.bare = tcbNewFrom P.pages b.thread (65534 + 1) k₂ := by
    simp only [tcbNew, halloc, if_neg h262]
    rfl
  have hone : tcbLimit - (65534 + 1) = 1 := rfl
  rw [hnew, tcbNewFrom, hone, hsub]
  generalize hk₃ : { k₂ with
      paging := (pgeAlloc P.pages k₂.paging).2,
      tcbTable := Function.update k₂.tcbTable 0 (some fun _ => 0) } = k₃
  have hentry : k₃.tableEntry 1 = 0 := by
    rw [← hk₃, Kernel.tableEntry]
    rfl
  simp only [Bool.true_eq_false, if_false, hentry, if_true, true_and]
  have hself := (k₃.setTableEntry 1 b.thread).updTcb_self b.thread fun t => t.init 1
  refine ⟨congrArg Tcb.state hself, congrArg Tcb.id hself, ?_⟩
  have htab : k₃.tcbTable (1 / 512) = some fun _ => 0 := by
    rw [← hk₃]
    rfl
  exact (congrFun (tableEntry_setTableEntry htab b.thread) 1).trans (Function.update_self ..)

/-- The thread is made, queued and dispatched; its registers are set at the end. -/
theorem init_effects : ∃ k₁, apilogicThreadCreate P.pages b.bare = (1, k₁) ∧
    Effects P (BootMay b.thread) k₁ (init b) ∧ (init b).activeTcb = b.thread ∧
    (init b).state b.thread = tcbStateRunning := by
  obtain ⟨hnew, hsusp, hid, hent⟩ := b.tcbNew_bare
  have hne : b.thread ≠ 0 := b.pages 262 (by decide)
  have hpair : tcbNew P.pages b.bare = (b.thread, (tcbNew P.pages b.bare).2) :=
    Prod.ext hnew rfl
  generalize (tcbNew P.pages b.bare).2 = k₁ at hsusp hid hpair hent
  have hcreate : apilogicThreadCreate P.pages b.bare = (1, k₁) := by
    simp only [apilogicThreadCreate, hpair, if_neg hne, setState_eq_self hsusp, hid]
  refine ⟨k₁, hcreate, ?_⟩
  have hs : Sound P b.bare := ⟨_, _, b.bare_coherent⟩
  have hlive : k₁.Live b.thread := ⟨hne, 1, by decide, hent⟩
  -- create, push, pull and load
  have happ : Effect.apply P b.bare .create = some k₁ := by
    rw [Effect.apply, hcreate]
  have hs1 : Sound P k₁ := by
    obtain ⟨t, free, hcoh, -⟩ := b.bare_coherent.create
    rw [hcreate] at hcoh
    exact ⟨_, _, hcoh⟩
  have ha1 : k₁.activeTcb = 0 := (Effect.spec hs (e := .create) trivial happ).active
  have hen2 : Enabled P k₁ (.ready b.thread) := by
    refine ⟨Or.inl hlive, ?_, ha1.trans_ne hne.symm⟩
    rw [hsusp]
    decide
  let k₂ := (schedulerPushTcb k₁ b.thread).setState b.thread tcbStateQueued
  have h2 : Effects P (BootMay b.thread) k₁ k₂ := .single hen2 rfl rfl
  have ha2 : k₂.activeTcb = 0 := (Effect.spec hs1 hen2 rfl).active.trans ha1
  have hhead : k₂.scheduleHead = b.thread := by
    obtain ⟨t, free, hcoh, -⟩ := b.bare_coherent.create
    rw [hcreate] at hcoh
    exact (hcoh.ready hen2.1 hen2.2.1 hen2.2.2).fifo.pull.1.symm
  let k₃ := (ccbLoadTcb ((schedulerPullTcb k₂).2.setState b.thread tcbStateRunning) b.thread).2
  have hen3 : Enabled P k₂ (.dispatch b.thread) := ⟨ha2, hne, hhead⟩
  have h3 : Effects P (BootMay b.thread) k₁ k₃ := .tail h2 ⟨hen3, rfl⟩ rfl
  have ha3 : k₃.activeTcb = b.thread := (Effect.spec (hs1.effects h2) hen3 rfl).active
  have hsched : (schedulerSchedule P (schedulerAddTcb k₁ b.thread)).1 = k₃ := by
    have hact : (schedulerPushTcb k₁ b.thread).activeTcb = 0 := ha2
    have hunload : ccbUnloadTcb (schedulerPushTcb k₁ b.thread) =
        (0, schedulerPushTcb k₁ b.thread) := if_pos hact
    have hpull : (schedulerPullTcb (schedulerPushTcb k₁ b.thread)).1 = b.thread := hhead
    simp only [schedulerSchedule, schedulerAddTcb, hunload, ne_eq, not_true_eq_false, if_false,
      hpull, hne, not_false_eq_true, if_true]
    change _ = (ccbLoadTcb ((schedulerPullTcb ((schedulerPushTcb k₁ b.thread).setState b.thread
      tcbStateQueued)).2.setState b.thread tcbStateRunning) b.thread).2
    rw [schedulerPullTcb_setState, setState_setState]
  -- the mappings of the image and the registers
  have h4 : Effects P (BootMay b.thread) k₁ { k₃ with paging := b.load k₃.paging } :=
    .tail h3 (e := .paging (b.load k₃.paging)) ⟨b.load_taken _, trivial⟩ rfl
  have hinit : init b = { k₃ with paging := b.load k₃.paging }.updTcb k₃.activeTcb fun t =>
      { t with regs := { t.regs with rip := b.kernelEntry, rsp := b.kernelStack } } := by
    simp only [init]
    rw [← bare, hpair]
    simp only
    rw [hsched]
  have hst3 : k₃.state b.thread = tcbStateRunning := by
    change (ccbLoadTcb _ _).2.state _ = _
    rw [ccbLoadTcb_state, Kernel.setState_state, if_pos rfl]
  clear_value k₃
  let t := k₃.tcb b.thread
  refine ⟨.tail h4 (e := .regs b.thread
    { t.regs with rip := b.kernelEntry, rsp := b.kernelStack } t.ivect t.saved t.error)
    ⟨trivial, trivial⟩ ?_, ?_, ?_⟩
  · rw [hinit, ha3]
    rfl
  · rw [hinit]
    exact ha3
  · rw [hinit, ha3, Kernel.state, Kernel.updTcb_self]
    exact hst3

theorem init_booted : Booted P (init b) := by
  obtain ⟨k₁, hcreate, heff, ha, hrun⟩ := b.init_effects
  obtain ⟨t, free, hcoh, hc⟩ := b.bare_coherent.create
  rw [hcreate] at hcoh hc
  have hs1 : Sound P k₁ := ⟨_, _, hcoh⟩
  have hne : b.thread ≠ 0 := b.pages 262 (by decide)
  have hv1 : Vectors k₁ := b.bare_vectors.congr hc.step.vectorPageTable
  -- what the steps behind the creation leave alone
  obtain ⟨htab, hheads, hpages, hidle⟩ := heff.keep (I := fun k => k.tableEntry = k₁.tableEntry ∧
      k.queueHead = k₁.queueHead ∧ k.vectorPageTable = k₁.vectorPageTable ∧
      (P.idleTcb ≠ b.thread → k.state P.idleTcb = k₁.state P.idleTcb))
    ⟨rfl, rfl, rfl, fun _ => rfl⟩ hs1 fun a e k' ⟨h1, h2, h3, h4⟩ hs he hm hk => by
      have hsp := Effect.spec hs he hk
      have hst := hsp.state P.idleTcb (Or.inr rfl)
      cases e with
      | ready p =>
        obtain rfl := hm
        exact ⟨hsp.table.trans h1, hsp.heads.trans h2, hsp.pages.trans h3,
          fun hi => (hst.trans (if_neg hi)).trans (h4 hi)⟩
      | dispatch p =>
        obtain rfl := hm
        exact ⟨hsp.table.trans h1, hsp.heads.trans h2, hsp.pages.trans h3,
          fun hi => (hst.trans (if_neg hi)).trans (h4 hi)⟩
      | regs =>
        exact ⟨hsp.table.trans h1, hsp.heads.trans h2, hsp.pages.trans h3,
          fun hi => hst.trans (h4 hi)⟩
      | paging =>
        exact ⟨hsp.table.trans h1, hsp.heads.trans h2, hsp.pages.trans h3,
          fun hi => hst.trans (h4 hi)⟩
      | _ => exact hm.elim
  have hlive : ∀ p, (init b).Live p ↔ p = t := fun p => by
    rw [Kernel.Live, htab]
    refine (hc.live p).trans ?_
    simp [b.bare_dead p]
  have hact : b.thread = t := by
    obtain ⟨run, free, hfin⟩ := hs1.effects heff
    have hl := (hfin.active.resolve_left (ha.trans_ne hne)).1.resolve_right ?_
    · exact ((hlive _).mp (ha ▸ hl))
    · rw [ha]
      exact P.idle_page _
  have hidle1 : k₁.state P.idleTcb = tcbStateFree :=
    (hc.step.state_eq hc.ne_idle.symm).trans (congrArg Tcb.state b.bare_idle)
  refine ⟨hs1.effects heff, hv1.effects hs1 heff, ha.trans_ne hne, fun p => ?_, ?_, ?_, fun q => ?_,
    fun vec hv r hr i => ?_⟩
  · rw [ha, hact]
    exact hlive p
  · rw [ha]
    exact hrun
  · exact (hidle (P.idle_page _).symm).trans hidle1
  · rw [hheads, hc.step.queueHead]
    rfl
  · rw [Kernel.routeOf, hpages, hc.step.vectorPageTable] at hr
    exact b.bare_routes vec hv r hr i

theorem sys_sound : SysSound P b.sys :=
  ⟨b.init_booted.sound, b.init_booted.vectors, b.init_booted.active, rfl,
    fun _ _ => b.init_booted.running⟩

end Boot
end Pinion64
