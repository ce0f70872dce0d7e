import Pinion64.Effect

/-! What each elementary step changes and what it leaves alone, one field of the kernel at a
time. -/
namespace Pinion64
open Intrusive Transition

variable {P : Platform} {k k' : Kernel} {e : Effect}

section Scheduler

@[simp] theorem schedulerPushTcb_state (k : Kernel) (t p : Ptr) :
    (schedulerPushTcb k t).state p = k.state p := by
  rw [schedulerPushTcb_eq]
  rfl

@[simp] theorem schedulerPushTcb_tap (k : Kernel) (t p : Ptr) :
    ((schedulerPushTcb k t).tcb p).tap = (k.tcb p).tap := by
  rw [schedulerPushTcb_eq]
  rfl

@[simp] theorem fireTap_state (k : Kernel) (t p : Ptr) (j : Fin 4) :
    (k.fireTap t j).state p = k.state p :=
  k.updTcb_proj t p _ Tcb.state fun _ => rfl

@[simp] theorem fireTap_next (k : Kernel) (t : Ptr) (j : Fin 4) :
    (k.fireTap t j).next = k.next :=
  funext fun p => k.updTcb_proj t p _ Tcb.next fun _ => rfl

@[simp] theorem ccbUnloadTcb_state (k : Kernel) (p : Ptr) :
    (ccbUnloadTcb k).2.state p = k.state p := by
  unfold ccbUnloadTcb
  split_ifs
  · rfl
  · exact Kernel.updTcb_proj { k with activeTcb := 0 } k.activeTcb p Tcb.unlock Tcb.state
      fun _ => rfl

@[simp] theorem ccbUnloadTcb_tap (k : Kernel) (p : Ptr) :
    ((ccbUnloadTcb k).2.tcb p).tap = (k.tcb p).tap := by
  unfold ccbUnloadTcb
  split_ifs
  · rfl
  · exact Kernel.updTcb_proj { k with activeTcb := 0 } k.activeTcb p Tcb.unlock Tcb.tap
      fun _ => rfl

@[simp] theorem ccbUnloadTcb_active (k : Kernel) : (ccbUnloadTcb k).2.activeTcb = 0 := by
  unfold ccbUnloadTcb
  split_ifs with h
  · exact h
  · rfl

theorem ccbLoadTcb_tcb (k : Kernel) (t : Ptr) : (ccbLoadTcb k t).2.tcb = k.tcb := by
  unfold ccbLoadTcb
  split_ifs
  · rfl
  · simp only
    split_ifs <;> rfl

@[simp] theorem ccbLoadTcb_state (k : Kernel) (t p : Ptr) :
    (ccbLoadTcb k t).2.state p = k.state p := by
  rw [Kernel.state, ccbLoadTcb_tcb]
  rfl

@[simp] theorem schedulerPullTcb_tcb (k : Kernel) : (schedulerPullTcb k).2.tcb = k.tcb := by
  simp only [schedulerPullTcb]
  split_ifs <;> rfl

@[simp] theorem schedulerPullTcb_active (k : Kernel) :
    (schedulerPullTcb k).2.activeTcb = k.activeTcb := by
  simp only [schedulerPullTcb]
  split_ifs <;> rfl

end Scheduler

/-- The search changes links only. -/
theorem Sound.rem (h : Sound P k) {t : Ptr} (ht : k.Live t) (hs : k.state t = tcbStateQueued) :
    ∃ n hd tl, schedulerRemTcb k t = some (0, k.relink n hd tl) ∧
      (hd = k.scheduleHead ∨ hd = k.next t) ∧
      ∀ p, n p = k.next p ∨ ((k.Live p ∨ p = P.idleTcb) ∧ k.state p = tcbStateQueued) ∧
        n p = k.next t := by
  obtain ⟨run, free, h⟩ := h
  obtain ⟨k₁, hrem, -, n, hd, tl, rfl, hhd, hn⟩ :=
    h.block ht hs (s := tcbStateSuspended) (by decide)
  exact ⟨n, hd, tl, hrem, hhd, fun p => (hn p).imp id (And.imp_left (h.queued p).mp)⟩

/-- Apart from the pushed block only a queued one gets another successor. -/
theorem Sound.push_next (h : Sound P k) {t p : Ptr} (hp : k.state p ≠ tcbStateQueued)
    (ht : p ≠ t) : (schedulerPushTcb k t).next p = k.next p := by
  obtain ⟨run, free, h⟩ := h
  rw [schedulerPushTcb_eq, Kernel.relink_next]
  split_ifs with hz
  · rw [Function.update_of_ne, Function.update_of_ne ht]
    rintro rfl
    have hne : run ≠ [] := fun hc => hz (h.fifo.tail_eq_null_iff.mpr hc)
    exact h.not_mem_run hp (h.fifo.tail_mem hne)
  · exact Function.update_of_ne ht ..

theorem Sound.fireTap (h : Sound P k) (t : Ptr) (j : Fin 4) : Sound P (k.fireTap t j) := by
  obtain ⟨run, free, h⟩ := h
  exact ⟨run, free, h.updTcb t _ fun _ => ⟨rfl, rfl, rfl, rfl⟩⟩

namespace Effect

/-- The active block afterwards. -/
def active (P : Platform) (k : Kernel) : Effect → Ptr
  | dispatch t => t
  | inject => P.idleTcb
  | unload => 0
  | _ => k.activeTcb

/-- The vector pages afterwards. -/
def pages (k : Kernel) : Effect → ℕ → VectorPage
  | setSlot vec i t => (k.setRoute vec i t).vectorPageTable
  | _ => k.vectorPageTable

/-- The heads of the report queues afterwards. -/
def heads (k : Kernel) : Effect → TcbQueue → Ptr
  | report q t => Function.update k.queueHead q t
  | fetch q => (getQueued k q).2.queueHead
  | _ => k.queueHead

/-- The taps of a block afterwards. -/
def taps (k : Kernel) (p : Ptr) : Effect → Fin 4 → BitVec 16
  | flag _ t j => ((k.fireTap t j).tcb p).tap
  | wake _ t j => ((k.fireTap t j).tcb p).tap
  | unwait _ t j => ((k.fireTap t j).tcb p).tap
  | setTap t i v => if p = t then Function.update (k.tcb p).tap i v else (k.tcb p).tap
  | _ => (k.tcb p).tap

/-- The blocks whose `next` a step may write, beside those of the run queue. -/
def Relinks : Effect → Ptr → Prop
  | ready t, p => p = t
  | wake _ t _, p => p = t
  | report _ t, p => p = t
  | _, _ => False

/-- The state of a block afterwards, unless it enters or leaves the table. -/
def stateOf (k : Kernel) (p : Ptr) : Effect → BitVec 16
  | ready t => if p = t then tcbStateQueued else k.state p
  | dispatch t => if p = t then tcbStateRunning else k.state p
  | block t => if p = t then tcbStateSuspended else k.state p
  | shift t s => if p = t then s else k.state p
  | wake _ t _ => if p = t then tcbStateQueued else k.state p
  | unwait _ t _ => if p = t then tcbStateSuspended else k.state p
  | _ => k.state p

/-- What a step on the table does to the set of live threads; `i` and `t` are the answer and
the block of a creation. -/
def Table (P : Platform) (k k' : Kernel) : Effect → Prop
  | create => ∃ i t, Creation P k k' i t
  | reap t => Reaping k k' t
  | _ => k'.tableEntry = k.tableEntry

/-- All that a step does, field by field. -/
structure Spec (P : Platform) (k k' : Kernel) (e : Effect) : Prop where
  active : k'.activeTcb = e.active P k
  pages : k'.vectorPageTable = e.pages k
  heads : k'.queueHead = e.heads k
  tap : ∀ p, (k'.tcb p).tap = e.taps k p
  next : ∀ p, k.state p ≠ tcbStateQueued → ¬ e.Relinks p → k'.next p = k.next p
  state : ∀ p, k'.Live p ∧ k.Live p ∨ p = P.idleTcb → k'.state p = e.stateOf k p
  table : e.Table P k k'
  report : ∀ q t, e = .report q t → k'.next = Function.update k.next t (k.queueHead q)

/-- A step on one block beside its `next`, its taps, its state and its id. -/
theorem spec_updTcb {t : Ptr} {f : Tcb → Tcb}
    (hf : ∀ b, (f b).next = b.next ∧ (f b).tap = b.tap ∧ (f b).state = b.state)
    (p : Ptr) : (k.updTcb t f).next p = k.next p ∧ ((k.updTcb t f).tcb p).tap = (k.tcb p).tap ∧
      (k.updTcb t f).state p = k.state p :=
  ⟨k.updTcb_proj t p f Tcb.next fun b => (hf b).1, k.updTcb_proj t p f Tcb.tap fun b => (hf b).2.1,
    k.updTcb_proj t p f Tcb.state fun b => (hf b).2.2⟩

theorem spec (h : Sound P k) (he : Enabled P k e) (hk : e.apply P k = some k') :
    e.Spec P k k' := by
  cases e with
  | ready t =>
    obtain rfl := Option.some.inj hk
    refine ⟨?_, ?_, ?_, fun p => ?_, fun p hp hr => ?_, fun p _ => ?_, ?_, by simp⟩
    · rw [schedulerPushTcb_eq]
      rfl
    · rw [schedulerPushTcb_eq]
      rfl
    · rw [schedulerPushTcb_eq]
      rfl
    · rw [Kernel.setState_tap, schedulerPushTcb_tap]
      rfl
    · rw [Kernel.setState_next]
      exact h.push_next hp hr
    · rw [Kernel.setState_state, schedulerPushTcb_state]
      rfl
    · change Kernel.tableEntry _ = k.tableEntry
      rw [schedulerPushTcb_eq]
      rfl
  | dispatch t =>
    obtain ⟨pcx, pcxId, hload⟩ := ccbLoadTcb_eq
      (k := (schedulerPullTcb k).2.setState t tcbStateRunning) t
      ((schedulerPullTcb_active k).trans he.1)
    obtain rfl := Option.some.inj hk
    have hpull : ∃ hd tl, (schedulerPullTcb k).2 = k.relink k.next hd tl := by
      simp only [schedulerPullTcb]
      split_ifs
      · exact ⟨_, _, rfl⟩
      · exact ⟨_, _, rfl⟩
      · exact ⟨_, _, rfl⟩
      · exact ⟨_, _, rfl⟩
    obtain ⟨hd, tl, hpull⟩ := hpull
    rw [hload, hpull]
    refine ⟨rfl, rfl, rfl, fun p => ?_, fun p _ _ => ?_, fun p _ => ?_, rfl, by simp⟩
    · exact (k.relink k.next hd tl).setState_tap t p _
    · exact congrFun ((k.relink k.next hd tl).setState_next t _) p
    · exact (k.relink k.next hd tl).setState_state t p _
  | inject =>
    obtain ⟨pcx, pcxId, hload⟩ := ccbLoadTcb_eq P.idleTcb he.1
    obtain rfl := Option.some.inj hk
    rw [hload]
    exact ⟨rfl, rfl, rfl, fun _ => rfl, fun _ _ _ => rfl, fun _ _ => rfl, rfl, by simp⟩
  | unload =>
    obtain rfl := Option.some.inj hk
    refine ⟨ccbUnloadTcb_active k, ?_, ?_, fun p => ccbUnloadTcb_tap k p, fun p _ _ => ?_,
      fun p _ => ccbUnloadTcb_state k p, ?_, by simp⟩
    · unfold ccbUnloadTcb
      split_ifs <;> rfl
    · unfold ccbUnloadTcb
      split_ifs <;> rfl
    · unfold ccbUnloadTcb
      split_ifs
      · rfl
      · exact Kernel.updTcb_proj { k with activeTcb := 0 } k.activeTcb p Tcb.unlock Tcb.next
          fun _ => rfl
    · unfold ccbUnloadTcb
      split_ifs <;> rfl
  | block t =>
    obtain ⟨n, hd, tl, hrem, -, hn⟩ := h.rem he.1 he.2
    rw [Effect.apply, hrem] at hk
    obtain rfl := Option.some.inj hk
    refine ⟨rfl, rfl, rfl, fun p => ?_, fun p hp _ => ?_, fun p _ => ?_, rfl, by simp⟩
    · exact (k.relink n hd tl).setState_tap t p _
    · exact (congrFun ((k.relink n hd tl).setState_next t _) p).trans
        ((hn p).resolve_right fun hc => hp hc.1.2)
    · exact (k.relink n hd tl).setState_state t p _
  | shift t s =>
    obtain rfl := Option.some.inj hk
    exact ⟨rfl, rfl, rfl, fun p => k.setState_tap t p s,
      fun p _ _ => congrFun (k.setState_next t s) p, fun p _ => k.setState_state t p s, rfl,
      by simp⟩
  | report q t =>
    obtain rfl := Option.some.inj hk
    rw [enqueue_eq]
    refine ⟨rfl, rfl, rfl, fun _ => rfl, fun p _ hr => Function.update_of_ne hr .., fun _ _ => rfl,
      rfl, ?_⟩
    rintro _ _ ⟨⟩
    rfl
  | fetch q =>
    obtain rfl := Option.some.inj hk
    refine ⟨?_, ?_, rfl, fun _ => ?_, fun p _ _ => ?_, fun p _ => ?_, ?_, by simp⟩
    all_goals
      simp only [getQueued]
      split_ifs <;> rfl
  | flag vec t j =>
    obtain rfl := Option.some.inj hk
    exact ⟨rfl, rfl, rfl, fun _ => rfl,
      fun p _ _ => k.updTcb_proj t p _ Tcb.next fun _ => rfl, fun p _ => fireTap_state k t p j, rfl,
      by simp⟩
  | wake vec t j =>
    obtain rfl := Option.some.inj hk
    have hs := h.fireTap t j
    have hx : ∀ (k₁ : Kernel) p, (k₁.setRax t (vec.setWidth 64)).next p = k₁.next p := fun k₁ p =>
      k₁.updTcb_proj t p _ Tcb.next fun _ => rfl
    refine ⟨?_, ?_, ?_, fun p => ?_, fun p hp hr => ?_, fun p _ => ?_, ?_, by simp⟩
    · rw [schedulerPushTcb_eq]
      rfl
    · rw [schedulerPushTcb_eq]
      rfl
    · rw [schedulerPushTcb_eq]
      rfl
    · rw [Kernel.setRax_tap, Kernel.setState_tap, schedulerPushTcb_tap]
      rfl
    · rw [hx, Kernel.setState_next, hs.push_next (by rwa [fireTap_state]) hr]
      exact k.updTcb_proj t p _ Tcb.next fun _ => rfl
    · rw [Kernel.setRax_state, Kernel.setState_state, schedulerPushTcb_state, fireTap_state]
      rfl
    · change Kernel.tableEntry _ = k.tableEntry
      rw [schedulerPushTcb_eq]
      rfl
  | unwait vec t j =>
    obtain rfl := Option.some.inj hk
    have hx : ∀ (k₁ : Kernel) p, (k₁.setRax t (vec.setWidth 64)).next p = k₁.next p := fun k₁ p =>
      k₁.updTcb_proj t p _ Tcb.next fun _ => rfl
    refine ⟨rfl, rfl, rfl, fun p => ?_, fun p hp hr => ?_, fun p _ => ?_, rfl, by simp⟩
    · rw [Kernel.setRax_tap, Kernel.setState_tap]
      rfl
    · rw [hx, Kernel.setState_next]
      exact k.updTcb_proj t p _ Tcb.next fun _ => rfl
    · rw [Kernel.setRax_state, Kernel.setState_state, fireTap_state]
      rfl
  | setTap t i v =>
    obtain rfl := Option.some.inj hk
    refine ⟨rfl, rfl, rfl, fun p => ?_, fun p _ _ => k.updTcb_proj t p _ Tcb.next fun _ => rfl,
      fun p _ => k.updTcb_proj t p _ Tcb.state fun _ => rfl, rfl, by simp⟩
    rw [Kernel.updTcb_tcb, taps]
    split_ifs with hp
    · rw [hp]
    · rfl
  | setSlot vec i t =>
    obtain rfl := Option.some.inj hk
    exact ⟨rfl, rfl, rfl, fun _ => rfl, fun _ _ _ => rfl, fun _ _ => rfl, rfl, by simp⟩
  | create =>
    obtain ⟨run, free, h⟩ := h
    obtain ⟨t, -, -, hc⟩ := h.create
    obtain rfl := Option.some.inj hk
    refine ⟨hc.step.activeTcb, hc.step.vectorPageTable, hc.step.queueHead, hc.step.tap_eq,
      fun p _ _ => congrFun hc.step.next_eq p, fun p hp => ?_, ⟨_, t, hc⟩, by simp⟩
    apply hc.step.state_eq
    rintro rfl
    rcases hp with hp | hp
    · exact hc.dead hp.2
    · exact hc.ne_idle hp
  | reap t =>
    obtain ⟨run, free, h⟩ := h
    obtain rfl := Option.some.inj hk
    have hr := (h.reap he.1 he.2.1 he.2.2).2
    refine ⟨hr.step.activeTcb, hr.step.vectorPageTable, hr.step.queueHead, hr.step.tap_eq,
      fun p _ _ => congrFun hr.step.next_eq p, fun p hp => ?_, hr, by simp⟩
    apply hr.step.state_eq
    rintro rfl
    rcases hp with hp | hp
    · exact ((hr.live p).mp hp.1).2 rfl
    · exact h.live_ne_idle he.1 hp
  | regs t r iv sv er =>
    obtain rfl := Option.some.inj hk
    have hf := spec_updTcb (k := k) (t := t)
      (f := fun b => { b with regs := r, ivect := iv, saved := sv, error := er })
      fun _ => ⟨rfl, rfl, rfl⟩
    exact ⟨rfl, rfl, rfl, fun p => (hf p).2.1, fun p _ _ => (hf p).1, fun p _ => (hf p).2.2, rfl,
      by simp⟩
  | paging p =>
    obtain rfl := Option.some.inj hk
    exact ⟨rfl, rfl, rfl, fun _ => rfl, fun _ _ _ => rfl, fun _ _ => rfl, rfl, by simp⟩

section Links

/-- The steps that change the run queue or a report queue. -/
def Moves : Effect → Prop
  | ready _ => True
  | dispatch _ => True
  | block _ => True
  | report .. => True
  | fetch _ => True
  | wake .. => True
  | _ => False

theorem links_eq (h : Sound P k) (he : Enabled P k e) (hk : e.apply P k = some k')
    (hm : ¬ e.Moves) : k'.next = k.next ∧ k'.scheduleHead = k.scheduleHead ∧
      k'.scheduleTail = k.scheduleTail ∧ k'.queueHead = k.queueHead := by
  have hupd : ∀ (k : Kernel) t f, (∀ b, (f b).next = b.next) → (k.updTcb t f).next = k.next :=
    fun k t f hf => funext fun p => k.updTcb_proj t p f Tcb.next hf
  cases e with
  | inject =>
    obtain ⟨pcx, pcxId, hload⟩ := ccbLoadTcb_eq P.idleTcb he.1
    obtain rfl := Option.some.inj hk
    rw [hload]
    exact ⟨rfl, rfl, rfl, rfl⟩
  | unload =>
    obtain rfl := Option.some.inj hk
    unfold ccbUnloadTcb
    split_ifs
    · exact ⟨rfl, rfl, rfl, rfl⟩
    · exact ⟨hupd { k with activeTcb := 0 } _ _ fun _ => rfl, rfl, rfl, rfl⟩
  | shift t s =>
    obtain rfl := Option.some.inj hk
    exact ⟨k.setState_next t s, rfl, rfl, rfl⟩
  | flag vec t j =>
    obtain rfl := Option.some.inj hk
    exact ⟨hupd k _ _ fun _ => rfl, rfl, rfl, rfl⟩
  | unwait vec t j =>
    obtain rfl := Option.some.inj hk
    refine ⟨?_, rfl, rfl, rfl⟩
    rw [Kernel.setRax_next, Kernel.setState_next, fireTap_next]
  | setTap t i v =>
    obtain rfl := Option.some.inj hk
    exact ⟨hupd k _ _ fun _ => rfl, rfl, rfl, rfl⟩
  | setSlot vec i t =>
    obtain rfl := Option.some.inj hk
    exact ⟨rfl, rfl, rfl, rfl⟩
  | create =>
    obtain ⟨i, t, hc⟩ := (spec h he hk).table
    exact ⟨hc.step.next_eq, hc.step.scheduleHead, hc.step.scheduleTail, hc.step.queueHead⟩
  | reap t =>
    have hr := (spec h he hk).table
    exact ⟨hr.step.next_eq, hr.step.scheduleHead, hr.step.scheduleTail, hr.step.queueHead⟩
  | regs t r iv sv er =>
    obtain rfl := Option.some.inj hk
    exact ⟨hupd k _ _ fun _ => rfl, rfl, rfl, rfl⟩
  | paging p =>
    obtain rfl := Option.some.inj hk
    exact ⟨rfl, rfl, rfl, rfl⟩
  | _ => exact absurd trivial hm

end Links

section Data

/-- The steps that change a block in its list, its state, its taps and its mutex only. -/
def Plain : Effect → Prop
  | wake .. => False
  | unwait .. => False
  | regs .. => False
  | create => False
  | reap _ => False
  | _ => True

variable {β : Type*} {π : Tcb → β}

theorem schedulerPushTcb_proj (hn : ∀ b n, π { b with next := n } = π b) (k : Kernel) (t p : Ptr) :
    π ((schedulerPushTcb k t).tcb p) = π (k.tcb p) := by
  rw [schedulerPushTcb_eq]
  exact hn ..

theorem setState_proj (hs : ∀ b s, π { b with state := s } = π b) (k : Kernel) (t p : Ptr)
    (s : BitVec 16) : π ((k.setState t s).tcb p) = π (k.tcb p) :=
  k.updTcb_proj t p _ π fun b => hs b s

theorem fireTap_proj (ht : ∀ b v, π { b with tap := v } = π b) (k : Kernel) (t p : Ptr)
    (j : Fin 4) : π ((k.fireTap t j).tcb p) = π (k.tcb p) :=
  k.updTcb_proj t p _ π fun b => ht b _

/-- What the lists, the states and the taps do not touch is kept by the plain steps. -/
theorem proj (h : Sound P k) (he : Enabled P k e) (hk : e.apply P k = some k') (hp : e.Plain)
    (hn : ∀ b n, π { b with next := n } = π b) (hs : ∀ b s, π { b with state := s } = π b)
    (ht : ∀ b v, π { b with tap := v } = π b) (hu : ∀ b r, π { b with reserved0 := r } = π b)
    (p : Ptr) : π (k'.tcb p) = π (k.tcb p) := by
  have hset : ∀ (k : Kernel) t s, π ((k.setState t s).tcb p) = π (k.tcb p) := fun k t s =>
    setState_proj hs k t p s
  cases e with
  | ready t =>
    obtain rfl := Option.some.inj hk
    exact (hset ..).trans (schedulerPushTcb_proj hn ..)
  | dispatch t =>
    obtain rfl := Option.some.inj hk
    rw [ccbLoadTcb_tcb, hset, schedulerPullTcb_tcb]
  | inject =>
    obtain rfl := Option.some.inj hk
    rw [ccbLoadTcb_tcb]
  | unload =>
    obtain rfl := Option.some.inj hk
    unfold ccbUnloadTcb
    split_ifs
    · rfl
    · exact Kernel.updTcb_proj { k with activeTcb := 0 } k.activeTcb p Tcb.unlock π
        fun b => hu b _
  | block t =>
    obtain ⟨n, hd, tl, hrem, -⟩ := h.rem he.1 he.2
    rw [Effect.apply, hrem] at hk
    obtain rfl := Option.some.inj hk
    exact (hset ..).trans (hn ..)
  | shift t s =>
    obtain rfl := Option.some.inj hk
    exact hset ..
  | report q t =>
    obtain rfl := Option.some.inj hk
    rw [enqueue_eq]
    exact hn ..
  | fetch q =>
    obtain rfl := Option.some.inj hk
    simp only [getQueued]
    split_ifs <;> rfl
  | flag vec t j =>
    obtain rfl := Option.some.inj hk
    exact fireTap_proj ht k t p j
  | setTap t i v =>
    obtain rfl := Option.some.inj hk
    exact k.updTcb_proj t p _ π fun b => ht b _
  | setSlot vec i t =>
    obtain rfl := Option.some.inj hk
    rfl
  | paging q =>
    obtain rfl := Option.some.inj hk
    rfl
  | _ => exact hp.elim

/-- The saved registers of a block afterwards, unless it enters or leaves the table. -/
def regsOf (k : Kernel) (p : Ptr) : Effect → Regs
  | wake vec t _ =>
    if p = t then { (k.tcb p).regs with rax := vec.setWidth 64 } else (k.tcb p).regs
  | unwait vec t _ =>
    if p = t then { (k.tcb p).regs with rax := vec.setWidth 64 } else (k.tcb p).regs
  | regs t r _ _ _ => if p = t then r else (k.tcb p).regs
  | _ => (k.tcb p).regs

theorem setRax_regs (k : Kernel) (t p : Ptr) (w : Word) : ((k.setRax t w).tcb p).regs =
    if p = t then { (k.tcb p).regs with rax := w } else (k.tcb p).regs := by
  rw [Kernel.setRax, Kernel.updTcb_tcb]
  split_ifs with hp
  · rw [hp]
  · rfl

/-- The part of a block that names and resumes its thread. -/
def threadData (b : Tcb) : BitVec 32 × Regs := (b.id, b.regs)

/-- Who keeps its place in the table keeps its id, and its registers but for those patched. -/
theorem data (h : Sound P k) (he : Enabled P k e) (hk : e.apply P k = some k') {p : Ptr}
    (hp : k'.Live p ∧ k.Live p ∨ p = P.idleTcb) :
    (k'.tcb p).id = (k.tcb p).id ∧ (k'.tcb p).regs = e.regsOf k p := by
  have hplain : e.Plain → (k'.tcb p).id = (k.tcb p).id ∧ (k'.tcb p).regs = (k.tcb p).regs := by
    intro hpl
    have hpair : threadData (k'.tcb p) = threadData (k.tcb p) :=
      proj h he hk hpl (fun _ _ => rfl) (fun _ _ => rfl) (fun _ _ => rfl) (fun _ _ => rfl) p
    exact ⟨congrArg Prod.fst hpair, congrArg Prod.snd hpair⟩
  have htable : ∀ t, TableStep k k' t → p ≠ t →
      (k'.tcb p).id = (k.tcb p).id ∧ (k'.tcb p).regs = (k.tcb p).regs := by
    intro t hs hne
    rw [hs.tcb p hne]
    exact ⟨rfl, rfl⟩
  have hstate : ∀ (b : Tcb) s, threadData { b with state := s } = threadData b := fun _ _ => rfl
  have hnext : ∀ (b : Tcb) n, threadData { b with next := n } = threadData b := fun _ _ => rfl
  have htap : ∀ (b : Tcb) v, threadData { b with tap := v } = threadData b := fun _ _ => rfl
  have hrax : ∀ (k₁ : Kernel) t w, threadData (k₁.tcb p) = threadData (k.tcb p) →
      ((k₁.setRax t w).tcb p).id = (k.tcb p).id ∧
      ((k₁.setRax t w).tcb p).regs =
        if p = t then { (k.tcb p).regs with rax := w } else (k.tcb p).regs := by
    intro k₁ t w hk₁
    obtain ⟨h1, h2⟩ := Prod.mk.inj hk₁
    rw [setRax_regs, h2]
    exact ⟨(k₁.setRax_id t p w).trans h1, rfl⟩
  cases e with
  | wake vec t j =>
    obtain rfl := Option.some.inj hk
    exact hrax _ t _ ((setState_proj hstate ..).trans ((schedulerPushTcb_proj hnext ..).trans
      (fireTap_proj htap k t p j)))
  | unwait vec t j =>
    obtain rfl := Option.some.inj hk
    exact hrax _ t _ ((setState_proj hstate ..).trans (fireTap_proj htap k t p j))
  | regs t r iv sv er =>
    obtain rfl := Option.some.inj hk
    refine ⟨k.updTcb_proj t p _ Tcb.id fun _ => rfl, ?_⟩
    rw [Kernel.updTcb_tcb, regsOf]
    split_ifs <;> rfl
  | create =>
    obtain ⟨i, t, hc⟩ := (spec h he hk).table
    refine htable t hc.step ?_
    rintro rfl
    rcases hp with hp | hp
    · exact hc.dead hp.2
    · exact hc.ne_idle hp
  | reap t =>
    refine htable t (spec h he hk).table.step ?_
    rintro rfl
    rcases hp with hp | hp
    · exact (((spec h he hk).table.live p).mp hp.1).2 rfl
    · obtain ⟨run, free, h⟩ := h
      exact h.live_ne_idle he.1 hp
  | _ => exact hplain trivial

end Data

end Effect
end Pinion64
