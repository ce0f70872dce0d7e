import Pinion64.PageFault
import Pinion64.Turns

/-! Which threads are RUNNING, and what becomes of a thread that a fault strikes. -/
namespace Pinion64
open Intrusive Transition

variable {P : Platform} {k k' : Kernel} {s s' : Sys} {e : Event} {f : Effect} {t p : Ptr}
  {x : BitVec 16}

section Rest

/-- A live block off the core in a state that only a call or the scheduler changes. -/
structure Resting (k : Kernel) (t : Ptr) (x : BitVec 16) : Prop where
  live : k.Live t
  state : k.state t = x
  away : k.activeTcb ≠ t

/-- The steps that change the state of such a block or take it away. -/
def Effect.Rouses (t : Ptr) : Effect → Prop
  | ready y => y = t
  | shift y _ => y = t
  | reap y => y = t
  | _ => False

theorem Resting.atRest (h : Resting k t x)
    (hx : x ≠ tcbStateQueued ∧ x ≠ tcbStateWaiting ∧ x ≠ tcbStateSuspendedWaiting) :
    k.AtRest t := by
  unfold Kernel.AtRest
  rw [h.state]
  exact hx

theorem Resting.effect (h : Resting k t x)
    (hx : x ≠ tcbStateQueued ∧ x ≠ tcbStateWaiting ∧ x ≠ tcbStateSuspendedWaiting)
    (hs : Sound P k) (he : Enabled P k f) (hk : f.apply P k = some k') (hf : ¬ f.Rouses t) :
    Resting k' t x := by
  have hsp := Effect.spec hs he hk
  obtain ⟨hq, hw, hsw⟩ := h.atRest hx
  obtain ⟨run, free, hc⟩ := hs
  have hlive : k'.Live t := by
    by_cases hr : ∃ y, f = .reap y
    · obtain ⟨y, rfl⟩ := hr
      exact (hsp.table.live t).mpr ⟨h.live, fun hy => hf hy.symm⟩
    · exact Effect.live_mono ⟨run, free, hc⟩ he hk (fun y hy => hr ⟨y, hy⟩) h.live
  have hhead : ∀ y, Enabled P k (.dispatch y) → y ≠ t := by
    rintro y ⟨-, hy0, rfl⟩ rfl
    obtain ⟨l, rfl, -⟩ := hc.fifo.1.exists_cons hy0
    exact hq ((hc.queued _).mp (List.mem_cons_self ..)).2
  refine ⟨hlive, (hsp.state t (Or.inl ⟨hlive, h.live⟩)).trans ?_, ?_⟩
  · rw [← h.state]
    cases f with
    | ready y => exact if_neg fun hy => hf hy.symm
    | dispatch y => exact if_neg (hhead y he).symm
    | block y =>
      refine if_neg ?_
      rintro rfl
      exact hq he.2
    | shift y z => exact if_neg fun hy => hf hy.symm
    | wake v y j =>
      refine if_neg ?_
      rintro rfl
      exact hw he.2.1
    | unwait v y j =>
      refine if_neg ?_
      rintro rfl
      exact hsw he.2
    | _ => rfl
  · rw [hsp.active]
    cases f with
    | dispatch y => exact hhead y he
    | inject => exact (hc.live_ne_idle h.live).symm
    | unload => exact h.live.1.symm
    | _ => exact h.away

theorem Resting.effects {A : Effect → Prop} (h : Resting k t x)
    (hx : x ≠ tcbStateQueued ∧ x ≠ tcbStateWaiting ∧ x ≠ tcbStateSuspendedWaiting)
    (hs : Sound P k) (hr : Effects P A k k') (hA : ∀ f, A f → ¬ f.Rouses t) :
    Resting k' t x :=
  hr.keep (I := fun a => Resting a t x) h hs fun _ f _ ha hsa he hf hk =>
    ha.effect hx hsa he hk (hA f hf)

/-- Only a thread_resume or a thread_reap disturbs a suspended thread off the core. -/
theorem Resting.step (h : Resting s.kernel t tcbStateSuspended) (hs : SysSound P s)
    (hst : s.step P e = some s')
    (hres : ∀ th, e = .call (.threadResume th) → target s.kernel th ≠ t)
    (hreap : ∀ th, e = .call (.threadReap th) → tcbGet s.kernel th ≠ t) :
    Resting s'.kernel t tcbStateSuspended := by
  have hx : tcbStateSuspended ≠ tcbStateQueued ∧ tcbStateSuspended ≠ tcbStateWaiting ∧
      tcbStateSuspended ≠ tcbStateSuspendedWaiting := by decide
  refine (hs.step hst).2.keep (I := fun a => Resting a t tcbStateSuspended) h hs.sound
    fun a f b ha hsa he hf hk => ha.effect hx hsa he hk ?_
  intro hro
  cases f with
  | ready y =>
    obtain rfl : y = t := hro
    cases e with
    | call c =>
      obtain ⟨th, rfl, rfl, -⟩ := hf
      exact hres th rfl rfl
    | interrupt v er cr2 => exact h.away hf.1.symm
    | yield => exact h.away hf.1.symm
    | run r => exact hf
    | ret => exact hf
  | shift y z =>
    obtain rfl : y = t := hro
    have hold : ∀ w, a.state y = w → w ≠ tcbStateSuspended → False := fun w hw hne =>
      hne (hw.symm.trans ha.state)
    rcases he.2 with ⟨hw, -⟩ | ⟨hw, -⟩ | ⟨hw, -⟩ | ⟨hw, -⟩
    · exact hold _ hw (by decide)
    · exact hold _ hw (by decide)
    · exact hold _ hw (by decide)
    · exact hold _ hw (by decide)
  | reap y =>
    obtain rfl : y = t := hro
    obtain ⟨th, rfl, hy⟩ := hf.reap
    exact hreap th rfl hy.symm
  | _ => exact hro

/-- A thread that a fault strikes loses the core and nothing else, unless it waits. -/
theorem step_fault_rest (hs : SysSound P s) {v : BitVec 32} {er cr2 : Word} {q : TcbQueue}
    (hst : s.step P (.interrupt v er cr2) = some s') (hq : faultQueue v = some q)
    (hl : s.kernel.Live s.active) (hx : s.kernel.AtRest s.active) :
    Resting s'.kernel s.active (s.kernel.state s.active) := by
  obtain ⟨k₂, heff, h0, hstate, htable, hk⟩ := step_fault hs hst hq
  have hs₂ := hs.sound.effects heff
  have h₂ : Resting k₂ s.active (s.kernel.state s.active) := by
    refine ⟨?_, hstate _, ?_⟩
    · rwa [Kernel.Live, htable]
    · rw [h0]
      exact hl.1.symm
  have hen : Enabled P k₂ (.report q s.active) := ⟨Or.inl h₂.live, (h₂.atRest hx).1⟩
  obtain ⟨_, hk₃, hs₃⟩ := hs₂.effect hen
  obtain rfl := Option.some.inj hk₃
  have h₃ := h₂.effect hx hs₂ hen rfl id
  have ha₃ : (enqueue k₂ q s.active).activeTcb = 0 := (Effect.spec hs₂ hen rfl).active.trans h0
  have hfire := fire_effects hs₃ (vectorPage_vector q) (Or.inl ha₃)
  have h₄ := h₃.effects hx hs₃ hfire fun f hf => by
    cases f with
    | flag => exact id
    | wake => exact id
    | unwait => exact id
    | _ => exact hf.elim
  have ha₄ := ((FireFrame.refl _).effects hs₃ hfire).active.trans ha₃
  have hs₄ := hs₃.effects hfire
  rw [hk]
  refine h₄.effects hx hs₄ (schedule_effects hs₄).1 fun f hf => ?_
  cases f with
  | ready y => exact absurd (hf.1.trans ha₄) hf.2
  | unload => exact id
  | dispatch y => exact id
  | inject => exact id
  | _ => exact hf.elim

end Rest
section Running

/-- A thread is RUNNING only if it is on the core. -/
def Kernel.RunsOnly (k : Kernel) (a : Ptr) : Prop :=
  ∀ p, k.Live p → k.state p = tcbStateRunning → p = a

/-- Nothing but a dispatch makes a thread RUNNING. -/
theorem Effect.running_of (hs : Sound P k) (he : Enabled P k f) (hk : f.apply P k = some k')
    (hd : ∀ y, f ≠ .dispatch y) (hl : k'.Live p) (hr : k'.state p = tcbStateRunning) :
    k.Live p ∧ k.state p = tcbStateRunning := by
  have hsp := Effect.spec hs he hk
  have hback : k.Live p := by
    cases f with
    | create =>
      obtain ⟨i, y, hc⟩ := hsp.table
      rcases (hc.live p).mp hl with hl | ⟨hi, rfl⟩
      · exact hl
      · exact absurd (hr.symm.trans (hc.found hi).2) (by decide)
    | reap y => exact ((hsp.table.live p).mp hl).1
    | _ =>
      have ht := hsp.table
      rwa [Kernel.Live, ht] at hl
  refine ⟨hback, ?_⟩
  rw [hsp.state p (Or.inl ⟨hl, hback⟩)] at hr
  cases f with
  | dispatch y => exact absurd rfl (hd y)
  | shift y z =>
    rw [Effect.stateOf] at hr
    split_ifs at hr
    · exact absurd hr he.2.new.2
    · exact hr
  | ready y =>
    rw [Effect.stateOf] at hr
    split_ifs at hr
    · exact absurd hr (by decide)
    · exact hr
  | block y =>
    rw [Effect.stateOf] at hr
    split_ifs at hr
    · exact absurd hr (by decide)
    · exact hr
  | wake v y j =>
    rw [Effect.stateOf] at hr
    split_ifs at hr
    · exact absurd hr (by decide)
    · exact hr
  | unwait v y j =>
    rw [Effect.stateOf] at hr
    split_ifs at hr
    · exact absurd hr (by decide)
    · exact hr
  | _ => exact hr

theorem Kernel.RunsOnly.effects {A : Effect → Prop} {a : Ptr} (h : k.RunsOnly a) (hs : Sound P k)
    (hr : Effects P A k k') (hA : ∀ f, A f → ∀ y, f ≠ .dispatch y) : k'.RunsOnly a :=
  hr.keep (I := fun k => k.RunsOnly a) h hs fun _ f _ ha hsa he hf hk p hl hrun => by
    obtain ⟨hl', hrun'⟩ := Effect.running_of hsa he hk (hA f hf) hl hrun
    exact ha p hl' hrun'

/-- scheduler_schedule takes RUNNING from the block that it unloads. -/
theorem Kernel.RunsOnly.schedule (h : k.RunsOnly k.activeTcb) (hs : Sound P k) :
    (schedulerSchedule P k).1.RunsOnly (schedulerSchedule P k).1.activeTcb := by
  obtain ⟨k₁, k₂, g, hsch⟩ := hs.schedule
  have hen₁ : Enabled P k .unload := trivial
  have heff₁ : Effects P (fun f => f = .unload ∨ f = .ready k.activeTcb) k k₁ :=
    .single hen₁ (Or.inl rfl) hsch.unload
  have hs₁ := hs.effects heff₁
  have hnone : ∀ p, k₂.Live p → k₂.state p ≠ tcbStateRunning := by
    intro p hl hr
    by_cases h0 : k.activeTcb = 0
    · rw [hsch.idle h0] at hl hr
      obtain ⟨hl', hr'⟩ := Effect.running_of hs hen₁ hsch.unload (by simp) hl hr
      exact hl'.1 ((h p hl' hr').trans h0)
    · obtain ⟨hen, hk₂⟩ := hsch.requeue h0
      have hsp := Effect.spec hs₁ hen hk₂
      obtain ⟨hl₁, hr₁⟩ := Effect.running_of hs₁ hen hk₂ (by simp) hl hr
      obtain ⟨hl', hr'⟩ := Effect.running_of hs hen₁ hsch.unload (by simp) hl₁ hr₁
      rw [hsp.state p (Or.inl ⟨hl, hl₁⟩), Effect.stateOf, if_pos (h p hl' hr')] at hr
      exact absurd hr (by decide)
  have hs₂ : Sound P k₂ := by
    by_cases h0 : k.activeTcb = 0
    · rw [hsch.idle h0]
      exact hs₁
    · obtain ⟨hen, hk₂⟩ := hsch.requeue h0
      exact hs.effects (heff₁.tail ⟨hen, Or.inr rfl⟩ hk₂)
  have hsp := Effect.spec hs₂ hsch.enabled hsch.load
  intro p hl hr
  rw [hsp.active]
  rcases hsch.choice with ⟨rfl, -⟩ | ⟨rfl, -⟩
  · change p = k₂.scheduleHead
    by_contra hne
    have hl₂ : k₂.Live p := by
      have ht := hsp.table
      rwa [Kernel.Live, ht] at hl
    rw [hsp.state p (Or.inl ⟨hl, hl₂⟩), Effect.stateOf, if_neg hne] at hr
    exact hnone p hl₂ hr
  · obtain ⟨hl₂, hr₂⟩ := Effect.running_of hs₂ hsch.enabled hsch.load (by simp) hl hr
    exact absurd hr₂ (hnone p hl₂)

/-- An event keeps RUNNING to the core unless it is a fault that strikes a running thread. -/
theorem running_step (h : s.kernel.RunsOnly s.active) (hs : SysSound P s)
    (hst : s.step P e = some s')
    (hf : ∀ v er cr2, e = .interrupt v er cr2 → (faultQueue v).isSome →
      s.kernel.Live s.active → s.kernel.state s.active ≠ tcbStateRunning) :
    s'.kernel.RunsOnly s'.active := by
  by_cases he : e.Schedules
  · obtain ⟨k₁, heff, hk, hact⟩ := step_schedule hs hst he
    have h₁ := h.effects hs.sound heff fun f hf y => by
      rintro rfl
      exact hf
    have hs₁ := hs.sound.effects heff
    rw [Sys.active, hk]
    refine Kernel.RunsOnly.schedule (fun p hl hr => ?_) hs₁
    rcases hact with ⟨h0, hno⟩ | hact
    · -- the block that was active has been unloaded, so it was not running
      have hp := h₁ p hl hr
      rw [hp] at hl hr
      have hback : s.kernel.Live s.active ∧ s.kernel.state s.active = tcbStateRunning := by
        by_contra hc
        have hkeep := heff.keep (I := fun a => ¬ (a.Live s.active ∧
          a.state s.active = tcbStateRunning)) hc hs.sound fun a f b ha hsa hen hf hb hboth => by
            refine ha (Effect.running_of hsa hen hb ?_ hboth.1 hboth.2)
            rintro y rfl
            exact hf
        exact hkeep ⟨hl, hr⟩
      obtain ⟨v, er, cr2, rfl, hq⟩ := hno hback.2
      exact absurd hback.2 (hf v er cr2 rfl hq hback.1)
    · exact (h₁ p hl hr).trans hact.symm
  · rw [step_other_active hs hst he]
    exact h.effects hs.sound (step_other hs hst he) fun f hf => hf.2.1

end Running
section Faulted

/-- A report of a fault of the block waits. -/
def Kernel.Awaited (k : Kernel) (t : Ptr) : Prop :=
  k.InQueue .pagefault t ∨ k.InQueue .miscfault t

/-- The calls on a stopped thread accept the thread. -/
structure Kernel.Steerable (k : Kernel) (i : BitVec 32) : Prop where
  pull : ∀ cls st x, st ≠ 0 → (apilogicThreadPullState k i cls st x).1 = true
  push : ∀ cls st x, st ≠ 0 → (apilogicThreadPushState k i cls st x).1 = true
  resume : (apilogicThreadResume k i).1 = true
  reap : (apilogicThreadReap k i).1 = true

/-- A fault strikes only a thread that is SUSPENDED already, on its way off the core, and nobody
resumes or reaps a thread whose fault has not been fetched. -/
def Sys.Spared (s : Sys) : Event → Prop
  | .interrupt v _ _ => (faultQueue v).isSome →
      s.kernel.Live s.active ∧ s.kernel.state s.active = tcbStateSuspended
  | .call (.threadResume th) => ¬ s.kernel.Awaited (target s.kernel th)
  | .call (.threadReap th) => ¬ s.kernel.Awaited (tcbGet s.kernel th)
  | _ => True

/-- RUNNING is the state of the thread on the core, a fault suspends the thread it strikes, and a
thread whose fault is fetched can be steered. -/
structure CoreKept (P : Platform) (ok : Sys → Event → Prop) (s : Sys) : Prop where
  running : (∀ e, s.pos s.active ≠ .tail e) → ∀ p, s.kernel.Live p →
    (s.kernel.state p = tcbStateRunning ↔ p = s.active)
  faulted : ∀ v er cr2 s', v < 32 → v ≠ 8 → s.kernel.Live s.active →
    ok s (.interrupt v er cr2) → s.step P (.interrupt v er cr2) = some s' →
    s'.kernel.state s.active = tcbStateSuspended
  pagefault : ∀ info i, (apilogicFaultGetPagefault s.kernel info).1 = some i →
    (apilogicFaultGetPagefault s.kernel info).2.Steerable i.thread
  miscfault : ∀ info i, (apilogicFaultGetMiscfault s.kernel info).1 = some i →
    (apilogicFaultGetMiscfault s.kernel info).2.Steerable i.thread

theorem faultQueue_isSome {v : BitVec 32} (hv : v < 32) (h8 : v ≠ 8) :
    ∃ q, faultQueue v = some q := by
  unfold faultQueue
  split_ifs
  · exact ⟨_, rfl⟩
  · exact ⟨_, rfl⟩

theorem Kernel.awaited_iff : k.Awaited t ↔ ∃ q, q ≠ .zombie ∧ k.InQueue q t := by
  constructor
  · rintro (h | h)
    · exact ⟨.pagefault, by decide, h⟩
    · exact ⟨.miscfault, by decide, h⟩
  · rintro ⟨q, hq, h⟩
    cases q with
    | pagefault => exact Or.inl h
    | miscfault => exact Or.inr h
    | zombie => exact absurd rfl hq

theorem Resting.steerable (h : Resting k t tcbStateSuspended) (hs : Sound P k) :
    k.Steerable (k.tcb t).id := by
  obtain ⟨run, free, hc⟩ := hs
  have hget : tcbGet k (k.tcb t).id = t := hc.get_id h.live
  have hself : selfOr k (k.tcb t).id = (k.tcb t).id := by
    refine if_neg fun hid => h.live.1 ?_
    rw [← hget, hid]
    exact if_pos (by decide)
  have hst : (k.tcb t).state = tcbStateSuspended := h.state
  have hstop : (k.tcb t).Stopped := Or.inl hst
  constructor
  · intro cls st x h0
    simp only [apilogicThreadPullState, hget]
    rw [if_neg h0, if_neg h.live.1, if_neg (not_not.mpr hstop)]
  · intro cls st x h0
    simp only [apilogicThreadPushState, hget]
    rw [if_neg h0, if_neg h.live.1, if_neg (not_not.mpr hstop)]
  · simp only [apilogicThreadResume, hself, hget]
    rw [if_neg h.live.1, if_pos hst]
  · simp only [apilogicThreadReap, hget]
    rw [if_neg h.live.1, if_neg (not_not.mpr hst)]

/-- The threads of a fault queue are suspended. -/
def Parked (P : Platform) (q : TcbQueue) (k : Kernel) : Prop :=
  ∃ l, Pending P k q l ∧ ∀ t ∈ l, Resting k t tcbStateSuspended

/-- What holds in the runs without a fault of a running thread. -/
structure OnCore (P : Platform) (s : Sys) : Prop where
  sound : SysSound P s
  running : s.kernel.RunsOnly s.active
  parked : ∀ q, q ≠ .zombie → Parked P q s.kernel

variable {q : TcbQueue}

theorem Resting.fetch (h : Resting k t x) : Resting (getQueued k q).2 t x := by
  have hsp : (getQueued k q).2.tableEntry = k.tableEntry ∧
      (getQueued k q).2.activeTcb = k.activeTcb := by
    simp only [getQueued]
    split_ifs
    · exact ⟨rfl, rfl⟩
    · exact ⟨rfl, rfl⟩
  refine ⟨?_, ?_, ?_⟩
  · rw [Kernel.Live, hsp.1]
    exact h.live
  · rw [Kernel.state, getQueued_tcb]
    exact h.state
  · rw [hsp.2]
    exact h.away

theorem Parked.fetch (h : Parked P q k) : Parked P q (getQueued k q).2 := by
  obtain ⟨l, hp, hl⟩ := h
  exact ⟨l.tail, hp.fetch.1, fun t ht => (hl t (List.mem_of_mem_tail ht)).fetch⟩

/-- The thread whose report is fetched is steerable afterwards. -/
theorem Parked.delivered (h : Parked P q k) (hs : Sound P k) (h0 : k.queueHead q ≠ 0) :
    (getQueued k q).2.Steerable (k.tcb (k.queueHead q)).id := by
  obtain ⟨l, hp, hl⟩ := h
  obtain ⟨m, rfl, -⟩ := hp.chain.exists_cons h0
  have hs' : Sound P (getQueued k q).2 := hs.effects (A := fun _ => True)
    (.single (e := .fetch q) trivial trivial rfl)
  have hsteer := ((hl _ (List.mem_cons_self ..)).fetch (q := q)).steerable hs'
  rwa [getQueued_tcb] at hsteer

/-- What a call that fetches leaves behind. -/
theorem step_fetch (hs : SysSound P s) {c : Call} (hst : s.step P (.call c) = some s')
    (hf : c.Fetches q) : s'.kernel = (getQueued s.kernel q).2 := by
  obtain ⟨-, -, r, hb⟩ := hs.step_call hst
  cases c with
  | threadGet q' =>
    obtain rfl := hf
    rw [← apilogicThreadGet_kernel]
    exact (congrArg Prod.snd (Option.some.inj hb)).symm
  | faultGetPagefault info =>
    obtain ⟨hi, rfl⟩ := hf
    have hk := apilogicFaultGetPagefault_kernel s.kernel info
    rw [if_neg hi] at hk
    rw [← hk]
    exact (congrArg Prod.snd (Option.some.inj hb)).symm
  | faultGetMiscfault info =>
    obtain ⟨hi, rfl⟩ := hf
    have hk := apilogicFaultGetMiscfault_kernel s.kernel info
    rw [if_neg hi] at hk
    rw [← hk]
    exact (congrArg Prod.snd (Option.some.inj hb)).symm
  | faultGetZombie info =>
    obtain ⟨hi, rfl⟩ := hf
    have hk := apilogicFaultGetZombie_kernel s.kernel info
    rw [if_neg hi] at hk
    rw [← hk]
    exact (congrArg Prod.snd (Option.some.inj hb)).symm
  | _ => exact hf.elim

theorem Parked.step (h : Parked P q s.kernel) (hs : SysSound P s) (hq : q ≠ .zombie)
    (hok : s.Spared e) (hst : s.step P e = some s') : Parked P q s'.kernel := by
  obtain ⟨l, hp, hl⟩ := h
  have haway : s.active ∉ l := fun ha => (hl _ ha).away rfl
  have hnot : ¬ s.kernel.InQueue q s.active := fun ha => haway (hp.mem_iff.mpr ha)
  have hawaited : ∀ t ∈ l, s.kernel.Awaited t := fun t ht =>
    Kernel.awaited_iff.mpr ⟨q, hq, hp.mem_iff.mp ht⟩
  have hstay : ∀ t ∈ l, Resting s'.kernel t tcbStateSuspended := by
    intro t ht
    refine (hl t ht).step hs hst ?_ ?_
    · rintro th rfl rfl
      exact hok (hawaited _ ht)
    · rintro th rfl rfl
      exact hok (hawaited _ ht)
  have hu : Undisturbed q s e := by
    refine ⟨fun ha => absurd ha hnot, fun ha => absurd ha hnot, fun ha => absurd ha hnot, ?_, ?_⟩
    · rintro th rfl ht
      exact absurd (hawaited _ (hp.mem_iff.mpr ht)) hok
    · rintro th rfl ht
      exact absurd (hawaited _ (hp.mem_iff.mpr ht)) hok
  by_cases hrep : e.Reports q
  · cases e with
    | interrupt v er cr2 =>
      obtain ⟨hlive, hsusp⟩ := hok (by rw [show faultQueue v = some q from hrep]; rfl)
      have hrest : s.kernel.AtRest s.active := by
        unfold Kernel.AtRest
        rw [hsusp]
        decide
      have hact := step_fault_rest hs hst hrep hlive hrest
      rw [hsusp] at hact
      refine ⟨s.active :: l, hp.fault hs hst hrep haway hrest, fun t ht => ?_⟩
      rcases List.mem_cons.mp ht with rfl | ht
      · exact hact
      · exact hstay t ht
    | call c => exact absurd hrep.2 hq
    | _ => exact hrep.elim
  by_cases hfetch : e.Fetches q
  · cases e with
    | call c =>
      rw [step_fetch hs hst hfetch]
      exact Parked.fetch ⟨l, hp, hl⟩
    | _ => exact hfetch.elim
  · exact ⟨l, (hp.step hs hu hst hrep hfetch).1, hstay⟩

theorem OnCore.step (h : OnCore P s) (hok : s.Spared e) (hst : s.step P e = some s') :
    OnCore P s' := by
  refine ⟨(h.sound.step hst).1, running_step h.running h.sound hst ?_,
    fun q hq => (h.parked q hq).step h.sound hq hok hst⟩
  rintro v er cr2 rfl hq -
  rw [(hok hq).2]
  decide

theorem OnCore.run {b : Boot P} (h : Run (Sys.step P) Sys.Spared b.sys s) : OnCore P s := by
  refine h.invariant (I := OnCore P) ⟨b.sys_sound, ?_, ?_⟩ fun _ _ _ ha hok hst => ha.step hok hst
  · exact fun p hl _ => (b.init_booted.live p).mp hl
  · exact fun q _ => ⟨[], .nil (b.init_booted.heads q), by simp⟩

/-- The first field of a report of a fault is the id of the block at the head of the queue. -/
theorem miscfault_thread {info : Ptr} {i : MiscfaultInfo}
    (h : (apilogicFaultGetMiscfault k info).1 = some i) : info ≠ 0 ∧ k.queueHead .miscfault ≠ 0 ∧
      i.thread = (k.tcb (k.queueHead .miscfault)).id := by
  unfold apilogicFaultGetMiscfault getMiscfault at h
  simp only [getQueued_fst, getQueued_tcb] at h
  split_ifs at h with h1 h2
  obtain rfl := Option.some.inj h
  exact ⟨h1, h2, rfl⟩

theorem pagefault_thread {info : Ptr} {i : PagefaultInfo}
    (h : (apilogicFaultGetPagefault k info).1 = some i) : info ≠ 0 ∧ k.queueHead .pagefault ≠ 0 ∧
      i.thread = (k.tcb (k.queueHead .pagefault)).id := by
  rw [apilogicFaultGetPagefault_fst] at h
  split_ifs at h with h1
  rw [not_or] at h1
  obtain rfl := Option.some.inj h
  exact ⟨h1.1, h1.2, rfl⟩

theorem OnCore.kept (h : OnCore P s) : CoreKept P Sys.Spared s := by
  constructor
  · intro htail p hl
    refine ⟨h.running p hl, ?_⟩
    rintro rfl
    refine h.sound.runs ?_ htail
    obtain ⟨run, free, hc⟩ := h.sound.sound
    exact hc.live_ne_idle hl
  · intro v er cr2 s' hv h8 hl hok hst
    obtain ⟨q, hq⟩ := faultQueue_isSome hv h8
    obtain ⟨-, hsusp⟩ := hok (by rw [hq]; rfl)
    have hrest : s.kernel.AtRest s.active := by
      unfold Kernel.AtRest
      rw [hsusp]
      decide
    exact (step_fault_rest h.sound hst hq hl hrest).state.trans hsusp
  · intro info i hi
    obtain ⟨h1, h2, h3⟩ := pagefault_thread hi
    rw [h3, apilogicFaultGetPagefault_kernel, if_neg h1]
    exact (h.parked .pagefault (by decide)).delivered h.sound.sound h2
  · intro info i hi
    obtain ⟨h1, h2, h3⟩ := miscfault_thread hi
    rw [h3, apilogicFaultGetMiscfault_kernel, if_neg h1]
    exact (h.parked .miscfault (by decide)).delivered h.sound.sound h2

/-- RUNNING is the state of the thread on the core, and faulted threads are suspended, in the runs
in which faults strike only suspended threads; a fault that strikes a running thread leaves it
RUNNING without the core. -/
theorem running_is_active (b : Boot P) :
    (∀ s, Run (Sys.step P) Sys.Spared b.sys s → CoreKept P Sys.Spared s) ∧
    ∀ s, Reach b s → ∀ v er cr2 s', v < 32 → v ≠ 8 → s.kernel.Live s.active →
      s.kernel.state s.active = tcbStateRunning → s.step P (.interrupt v er cr2) = some s' →
      s'.kernel.state s.active = tcbStateRunning ∧ s'.active ≠ s.active := by
  refine ⟨fun s h => (OnCore.run h).kept, fun s h v er cr2 s' hv h8 hl hr hst => ?_⟩
  obtain ⟨q, hq⟩ := faultQueue_isSome hv h8
  have hrest : s.kernel.AtRest s.active := by
    unfold Kernel.AtRest
    rw [hr]
    decide
  have hfin := step_fault_rest h.sound hst hq hl hrest
  exact ⟨hfin.state.trans hr, hfin.away⟩

/-- A test for steps that spare: a thread of the given id faults, and nothing is resumed after it. -/
def Sys.sparing (i : BitVec 32) (s : Sys) : Event → Bool
  | .interrupt .. => tcbGet s.kernel i ≠ 0 ∧ tcbGet s.kernel i = s.active ∧
      s.kernel.state s.active = tcbStateSuspended
  | .call (.threadResume _) => s.kernel.queueHead .pagefault = 0 ∧ s.kernel.queueHead .miscfault = 0
  | .call (.threadReap _) => false
  | _ => true

theorem Sys.spared_of_sparing {i : BitVec 32} {e : Event} (h : s.sparing i e = true) : s.Spared e := by
  cases e with
  | interrupt v er cr2 =>
    obtain ⟨hne, hget, hsusp⟩ := of_decide_eq_true h
    exact fun _ => ⟨hget ▸ Coherent.get_live hne, hsusp⟩
  | call c =>
    cases c with
    | threadResume th =>
      obtain ⟨hpage, hmisc⟩ := of_decide_eq_true h
      rintro (hq | hq)
      · rw [Kernel.InQueue, hpage] at hq
        exact hq.not_null
      · rw [Kernel.InQueue, hmisc] at hq
        exact hq.not_null
    | threadReap th => exact absurd h Bool.false_ne_true
    | _ => trivial
  | _ => trivial

/-- Thread 2 exits and faults before it leaves the core; it can be steered once its fault is fetched. -/
theorem running_is_active_tail :
    (∃ s i, Run (Sys.step lowPlatform) Sys.Spared lowBoot.sys s ∧
      (apilogicFaultGetPagefault s.kernel 1).1 = some i ∧ i.thread = 2 ∧
      (apilogicFaultGetPagefault s.kernel 1).2.Steerable 2) ∧
    ∃ s', lowBoot.sys.step lowPlatform (.interrupt 14 0 0) = some s' ∧
      s'.kernel.state lowBoot.sys.active = tcbStateRunning ∧ s'.active ≠ lowBoot.sys.active := by
  constructor
  · obtain ⟨s, hr, hs⟩ := Run.exists_of_guarded (Sys.step lowPlatform)
      (fun s e => s.sparing 2 e = true) lowBoot.sys
      [.call .threadCreate, .yield, .ret, .call (.threadResume 2), .yield, .call .threadExit,
        .interrupt 14 0 0]
      (fun s => (apilogicFaultGetPagefault s.kernel 1).1.map PagefaultInfo.thread = some 2)
      (by decide +kernel)
    obtain ⟨i, hi, h2⟩ := Option.map_eq_some_iff.mp (of_decide_eq_true hs)
    have hrun := hr.mono fun _ _ => Sys.spared_of_sparing
    exact ⟨s, i, hrun, hi, h2, h2 ▸ ((running_is_active lowBoot).1 s hrun).pagefault 1 i hi⟩
  · obtain ⟨s', hs'⟩ : ∃ s', lowBoot.sys.step lowPlatform (.interrupt 14 0 0) = some s' :=
      Option.isSome_iff_exists.mp (by decide +kernel)
    have hone : tcbGet lowBoot.sys.kernel 1 ≠ 0 ∧ tcbGet lowBoot.sys.kernel 1 = lowBoot.sys.active := by
      decide +kernel
    exact ⟨s', hs', (running_is_active lowBoot).2 lowBoot.sys .refl 14 0 0 s' (by decide) (by decide)
      (hone.2 ▸ Coherent.get_live hone.1) (by decide +kernel) hs'⟩

/-- The first thread faults: it stays RUNNING while the idle block has the core. -/
theorem fault_leaves_running : ¬ ∀ (P : Platform) (b : Boot P) (s : Sys), Reach b s →
    CoreKept P Free s := by
  intro h
  obtain ⟨s, hr, hs⟩ := Run.exists_of_exec (Sys.step lowPlatform) lowBoot.sys [.interrupt 14 0 0]
    (fun s => s.active = lowPlatform.idleTcb ∧ s.pos s.active = .user ∧ tcbGet s.kernel 1 ≠ 0 ∧
      s.kernel.state (tcbGet s.kernel 1) = tcbStateRunning) (by decide +kernel)
  obtain ⟨hidle, hpos, hne, hrun⟩ := of_decide_eq_true hs
  have hlive := Coherent.get_live hne
  have hactive := ((h lowPlatform lowBoot s hr).running (fun e => by rw [hpos]; simp) _ hlive).mp hrun
  obtain ⟨run, free, hc⟩ := (Reach.sound hr).sound
  exact hc.live_ne_idle hlive (hactive.trans hidle)

end Faulted
end Pinion64
