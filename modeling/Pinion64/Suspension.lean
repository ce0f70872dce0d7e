import Pinion64.Turns
import Pinion64.WaitReturn

/-! Threads that put themselves to rest. Pause, exit and wait change the state of their caller in
the body; it leaves the core in the trap behind, and a timer tick may come between the two. -/
namespace Pinion64
open Intrusive Transition

section Definitions

/-- The call puts its own thread to rest. -/
def Call.Suspends (k : Kernel) : Call → Prop
  | threadPause thread => target k thread = k.activeTcb
  | threadExit => True
  | interruptWait => ∀ i, (k.tcb k.activeTcb).tap i &&& 0x8000 = 0
  | _ => False

/-- The timer strikes a thread that is no longer RUNNING and has not come to its trap. -/
def Sys.Preempts (s : Sys) : Event → Prop
  | .interrupt v _ _ => v = 32 ∧ (∃ e, s.pos s.active = .tail e) ∧
      s.kernel.state s.active ≠ tcbStateRunning
  | _ => False

def Sys.Resumes (s : Sys) (t : Ptr) : Event → Prop
  | .call (.threadResume thread) => target s.kernel thread = t
  | _ => False

/-- The thread is resumed out of its suspension, or a vector that it waits for fires. -/
def Sys.Releases (s : Sys) (t : Ptr) (e : Event) : Prop :=
  s.kernel.state t = tcbStateSuspended ∧ s.Resumes t e ∨
    s.kernel.state t = tcbStateWaiting ∧ ∃ i, s.Rings e t i

/-- The states that keep a thread off the core. -/
def Dormant (x : BitVec 16) : Prop :=
  x = tcbStateSuspended ∨ x = tcbStateWaiting ∨ x = tcbStateSuspendedWaiting

/-- The thread is at rest: it is not on the run queue, and if it still has the core it stands
before the trap of the entry that put it to rest. -/
structure Sys.Off (s : Sys) (t : Ptr) (x : Entry) : Prop where
  rest : s.kernel.Live t → Dormant (s.kernel.state t)
  queue : ∀ run, Chain s.kernel.next 0 s.kernel.scheduleHead run → t ∉ run
  core : s.active = t → s.pos t = .tail x

instance decTail (p : Pos) : Decidable (∃ e, p = .tail e) :=
  match p with
  | .tail e => isTrue ⟨e, rfl⟩
  | .user => isFalse (by simp)
  | .ret _ => isFalse (by simp)

instance decPreempts (s : Sys) : (e : Event) → Decidable (s.Preempts e)
  | .interrupt .. => inferInstanceAs (Decidable (_ ∧ _ ∧ _))
  | .call _ | .yield | .run _ | .ret => instDecidableFalse

instance decCallResumes (s : Sys) (t : Ptr) : (c : Call) → Decidable (s.Resumes t (.call c))
  | .threadResume _ => inferInstanceAs (Decidable (_ = _))
  | .threadYield | .threadCreate | .threadPause _ | .threadExit | .threadReap _
  | .threadPullState .. | .threadPushState .. | .interruptSetTap _ _ | .interruptGetTap _
  | .interruptReset _ | .interruptWait | .threadGet _ | .faultGetPagefault _
  | .faultGetMiscfault _ | .faultGetZombie _ | .pageSet .. | .pageGet _ => instDecidableFalse

instance decResumes (s : Sys) (t : Ptr) : (e : Event) → Decidable (s.Resumes t e)
  | .call c => decCallResumes s t c
  | .interrupt .. | .yield | .run _ | .ret => instDecidableFalse

instance decReleases (s : Sys) (t : Ptr) (e : Event) : Decidable (s.Releases t e) :=
  inferInstanceAs (Decidable (_ ∧ _ ∨ _ ∧ ∃ _ : Fin 4, _))

end Definitions

variable {P : Platform} {k k' : Kernel} {s s' : Sys} {e : Event} {f : Effect} {c : Call}
  {p t : Ptr} {x : Entry} {v : BitVec 16} {i : Fin 4}

theorem Dormant.ne_running {y : BitVec 16} (h : Dormant y) : y ≠ tcbStateRunning := by
  rcases h with rfl | rfl | rfl <;> decide

theorem Dormant.ne_queued {y : BitVec 16} (h : Dormant y) : y ≠ tcbStateQueued := by
  rcases h with rfl | rfl | rfl <;> decide

theorem Tcb.Shift.dormant {b : Tcb} {y : BitVec 16} (h : b.Shift y) : Dormant y := by
  rcases h with ⟨-, rfl⟩ | ⟨-, rfl⟩ | ⟨-, rfl⟩ | ⟨-, rfl, -⟩
  · exact Or.inr (Or.inr rfl)
  · exact Or.inr (Or.inl rfl)
  · exact Or.inl rfl
  · exact Or.inr (Or.inl rfl)

section Rings

/-- A route that names another thread goes on to name it when a tap is set. -/
theorem retap_routed_other {w : BitVec 16} (hp : p ≠ k.activeTcb) (h : k.Routed v p) :
    (retap k i w).Routed v p := by
  obtain ⟨h0, r, hr, hj⟩ := h
  have hdrop : ∃ j, dropSlot k.activeTcb r j = p := by
    apply Counting.tally_pos_iff.mp
    rw [tally_dropSlot_other r hp h0]
    exact Counting.tally_pos_iff.mpr hj
  have htake : ∀ r' : Fin 4 → Ptr, (∃ j, r' j = p) → ∃ j, takeSlot k.activeTcb r' j = p := by
    intro r' hr'
    apply Counting.tally_pos_iff.mp
    rw [tally_takeSlot_other r' hp h0]
    exact Counting.tally_pos_iff.mpr hr'
  have huntap : ∃ r', (untap k i).routeOf v = some r' ∧ ∃ j, r' j = p := by
    rw [untap_routeOf, hr]
    split_ifs
    · exact ⟨_, rfl, hdrop⟩
    · exact ⟨r, rfl, hj⟩
  obtain ⟨r', hr', hj'⟩ := huntap
  rw [Kernel.Routed, retap_routeOf, hr']
  split_ifs
  · exact ⟨h0, _, rfl, htake r' hj'⟩
  · exact ⟨h0, r', rfl, hj'⟩

theorem Kernel.Rings.rewired (h : k.Rings v p i) (hp : p ≠ k.activeTcb) :
    (c.rewired k).Rings v p i := by
  obtain ⟨hr, ht⟩ := h
  cases c with
  | interruptSetTap index vec =>
    by_cases ha : index.toNat < 4 ∧ vec &&& 0xC000 = 0
    · rw [rewired_accepted ha.1 ha.2]
      exact ⟨retap_routed_other hp hr, (tapOf_congr ((retap_tap ..).trans (if_neg hp)) v).trans ht⟩
    · rw [rewired_refused ha]
      exact ⟨hr, ht⟩
  | interruptReset vec =>
    rw [Call.rewired]
    cases resetSlot k vec with
    | none => exact ⟨hr, ht⟩
    | some j =>
      exact ⟨hr, (tapOf_congr ((unflag_tap k j p).trans (if_neg hp)) v).trans ht⟩
  | _ => exact ⟨hr, ht⟩

theorem Sys.fires_queue (h : s.Fires v e) : ∃ q : TcbQueue, v = q.vector := by
  cases e with
  | call c => exact (fires_vector h).imp fun _ => And.right
  | interrupt iv er cr2 => exact h.imp fun _ => And.right
  | _ => exact h.elim

/-- The tap that matches a vector is rung when it fires, for every thread but the one that calls. -/
theorem Fired.rings (hf : Fired s.kernel v p i) (hp : ∀ c, e = .call c → p ≠ s.active) :
    (e.rewired s.kernel).Rings v p i := by
  cases e with
  | call c => exact Kernel.Rings.rewired hf.2 (hp c rfl)
  | _ => exact hf.2

end Rings

section Step

/-- The steps that put a block on the run queue. -/
def Effect.Queues (t : Ptr) : Effect → Prop
  | ready y => y = t
  | wake _ y _ => y = t
  | _ => False

/-- Nothing else takes a thread at rest out of it. -/
theorem Effect.dormant (hs : Sound P k) (he : Enabled P k f) (hk : f.apply P k = some k')
    (hf : ¬ f.Queues t) (h : k.Live t → Dormant (k.state t)) :
    k'.Live t → Dormant (k'.state t) := by
  intro hl
  have hsp := Effect.spec hs he hk
  by_cases hold : k.Live t
  · rw [hsp.state t (Or.inl ⟨hl, hold⟩)]
    have hd := h hold
    cases f with
    | ready y => rwa [Effect.stateOf, if_neg fun hy => hf hy.symm]
    | dispatch y =>
      have hy : t ≠ y := by
        rintro rfl
        obtain ⟨-, h0, rfl⟩ := he
        obtain ⟨run, free, hc⟩ := hs
        obtain ⟨l, rfl, -⟩ := hc.fifo.1.exists_cons h0
        exact hd.ne_queued ((hc.queued _).mp (List.mem_cons_self ..)).2
      rwa [Effect.stateOf, if_neg hy]
    | block y =>
      rw [Effect.stateOf]
      split_ifs
      · exact Or.inl rfl
      · exact hd
    | shift y z =>
      rw [Effect.stateOf]
      split_ifs
      · exact he.2.dormant
      · exact hd
    | wake v y j => rwa [Effect.stateOf, if_neg fun hy => hf hy.symm]
    | unwait v y j =>
      rw [Effect.stateOf]
      split_ifs
      · exact Or.inl rfl
      · exact hd
    | _ => exact hd
  · cases f with
    | create =>
      obtain ⟨j, y, hc⟩ := hsp.table
      obtain ⟨hj, rfl⟩ := ((hc.live t).mp hl).resolve_left hold
      exact Or.inl (hc.found hj).2
    | reap y => exact absurd ((hsp.table.live t).mp hl).1 hold
    | _ =>
      have ht := hsp.table
      rw [Kernel.Live, ht] at hl
      exact absurd hl hold

/-- The block of a thread at rest, on the core only before the trap of its entry. -/
structure Sys.Rests (P : Platform) (s : Sys) (t : Ptr) (x : Entry) : Prop where
  ne_null : t ≠ 0
  ne_idle : t ≠ P.idleTcb
  rest : s.kernel.Live t → Dormant (s.kernel.state t)
  core : s.active = t → s.pos t = .tail x

theorem Sys.Rests.off (h : s.Rests P t x) (hs : SysSound P s) : s.Off t x := by
  refine ⟨h.rest, fun run hr ht => ?_, h.core⟩
  obtain ⟨run', free, hc⟩ := hs.sound
  obtain rfl := hr.unique hc.fifo.1
  obtain ⟨hl, hq⟩ := (hc.queued t).mp ht
  exact (h.rest (hl.resolve_right h.ne_idle)).ne_queued hq

theorem Sys.Rests.live (h : s.Rests P t x) (hs : SysSound P s) (ha : s.active = t) :
    s.kernel.Live t := by
  obtain ⟨run, free, hc⟩ := hs.sound
  have hact := (hc.active.resolve_left hs.active).1
  rw [← Sys.active, ha] at hact
  exact hact.resolve_right h.ne_idle

/-- Only a release or a tick before its trap puts a thread at rest on the run queue. -/
theorem Sys.Rests.not_queued (h : s.Rests P t x) (hx : x.yieldCode = 0) (hs : SysSound P s)
    (hst : s.step P e = some s') (hrel : ¬ s.Releases t e) (hpre : s.active = t → ¬ s.Preempts e)
    (hm : s.May e f) : ¬ f.Queues t := by
  intro hq
  cases f with
  | ready y =>
    obtain rfl : y = t := hq
    cases e with
    | call c =>
      obtain ⟨th, rfl, hy, hsus⟩ := hm
      exact hrel (Or.inl ⟨hsus, hy.symm⟩)
    | interrupt v er cr2 =>
      obtain ⟨hact, hre⟩ := hm
      have hact' : s.active = y := hact.symm
      have hrun := (h.rest (h.live hs hact')).ne_running
      rw [← hact'] at hrun
      rcases hre with h32 | ⟨h100, -⟩
      · exact hpre hact' ⟨h32, ⟨x, by rw [hact']; exact h.core hact'⟩, hrun⟩
      · exact (Sys.interrupt_cases hst).1.ne_yield h100
    | yield =>
      obtain ⟨hact, hre⟩ := hm
      have hact' : s.active = y := hact.symm
      have hrun := (h.rest (h.live hs hact')).ne_running
      rw [← hact'] at hrun
      have hcode : s.yieldCode = 0 := by
        rw [Sys.yieldCode, hact', h.core hact']
        exact hx
      rcases hre with h32 | ⟨-, h0 | hr⟩
      · exact absurd h32 (by decide)
      · exact h0 hcode
      · exact hrun hr
    | run r => exact hm
    | ret => exact hm
  | wake v y j =>
    obtain rfl : y = t := hq
    obtain ⟨hfire, hf, hw⟩ := hm.wake
    obtain ⟨q, rfl⟩ := Sys.fires_queue hfire
    refine hrel (Or.inr ⟨hw, j, q, hfire, hf.rings ?_⟩)
    rintro c rfl hact
    have hpos := (Sys.call_cases hst).1
    rw [← hact, h.core hact.symm] at hpos
    cases hpos
  | _ => exact hq

/-- Who is at rest is not dispatched, and stays at rest until it is released. -/
theorem Sys.Rests.kernel_step (h : s.Rests P t x) (hx : x.yieldCode = 0) (hs : SysSound P s)
    (hst : s.step P e = some s') (hrel : ¬ s.Releases t e) (hpre : s.active = t → ¬ s.Preempts e) :
    (s'.kernel.Live t → Dormant (s'.kernel.state t)) ∧ (s'.active = t → s.active = t) := by
  refine (hs.step hst).2.keep (I := fun a => (a.Live t → Dormant (a.state t)) ∧
    (a.activeTcb = t → s.active = t)) ⟨h.rest, id⟩ hs.sound fun a f b ha hsa he hm hb => ?_
  refine ⟨Effect.dormant hsa he hb (h.not_queued hx hs hst hrel hpre hm) ha.1, fun hact => ?_⟩
  rw [(Effect.spec hsa he hb).active] at hact
  cases f with
  | dispatch y =>
    obtain rfl : y = t := hact
    obtain ⟨-, h0, rfl⟩ := he
    obtain ⟨run, free, hc⟩ := hsa
    obtain ⟨l, rfl, -⟩ := hc.fifo.1.exists_cons h0
    obtain ⟨hl, hq⟩ := (hc.queued _).mp (List.mem_cons_self ..)
    exact absurd hq (ha.1 (hl.resolve_right h.ne_idle)).ne_queued
  | inject => exact absurd hact.symm h.ne_idle
  | unload => exact absurd hact.symm h.ne_null
  | _ => exact ha.2 hact

/-- Behind its trap a thread at rest is off the core. -/
theorem Sys.Rests.yield_away (h : s.Rests P t x) (hx : x.yieldCode = 0) (hs : SysSound P s)
    (hst : s.step P .yield = some s') (hrel : ¬ s.Releases t .yield) : s'.active ≠ t := by
  intro hact
  obtain ⟨hrest, hcore⟩ := h.kernel_step hx hs hst hrel fun _ => id
  have hpos := h.core (hcore hact)
  have hlive := h.live hs (hcore hact)
  have hs' := (hs.step hst).1
  rcases Sys.yield_cases hst with ⟨hu, -, -⟩ | ⟨y, hy, rfl⟩
  · rw [hcore hact, hpos] at hu
    cases hu
  let s₁ : Sys := ({ s with cpu := { s.cpu with rdi := y.yieldCode } } : Sys).setPos s.active (.ret y)
  obtain ⟨hl', hsame, -⟩ := enter_rax (s := s₁) (p := t) 0x100 0 hs.sound hs.active hlive
  have hret : s₁.pos t = .ret y := by
    rw [← hcore hact]
    exact Function.update_self ..
  have hrun := hs'.runs (hact ▸ h.ne_idle) fun e he => by
    rw [hact, hsame, hret] at he
    cases he
  rw [hact] at hrun
  exact (hrest hl').ne_running hrun

/-- Until it is released, a thread at rest stays at rest unless the timer strikes it before its
trap. -/
theorem Sys.Rests.step (h : s.Rests P t x) (hx : x.yieldCode = 0) (hs : SysSound P s)
    (hst : s.step P e = some s') (hrel : ¬ s.Releases t e) (hpre : s.active = t → ¬ s.Preempts e) :
    s'.Rests P t x ∧ (s'.active = t → s.active = t) := by
  obtain ⟨hrest, hcore⟩ := h.kernel_step hx hs hst hrel hpre
  refine ⟨⟨h.ne_null, h.ne_idle, hrest, fun hact => ?_⟩, hcore⟩
  have hpos := h.core (hcore hact)
  have huser : ¬ s.pos s.active = .user := by
    rw [hcore hact, hpos]
    simp
  cases e with
  | run r => exact absurd (Sys.run_cases hst).1 huser
  | call c => exact absurd (Sys.call_cases hst).1 huser
  | interrupt v er cr2 =>
    exact (interrupt_rax hs hst (h.live hs (hcore hact))).2.1.trans hpos
  | yield => exact absurd hact (h.yield_away hx hs hst hrel)
  | ret =>
    obtain ⟨y, hy, -⟩ := Sys.ret_cases hst
    rw [hcore hact, hpos] at hy
    cases hy

/-- A tick before the trap queues the thread, and maybe runs it again at once. -/
theorem Sys.Rests.preempted (h : s.Rests P t x) (hs : SysSound P s) (hact : s.active = t)
    (hst : s.step P e = some s') (hpre : s.Preempts e) :
    s'.kernel.Live t ∧ ¬ Dormant (s'.kernel.state t) := by
  cases e with
  | interrupt v er cr2 =>
    obtain ⟨rfl, -⟩ := hpre
    obtain ⟨-, er', hk⟩ := step_interrupt hst
    obtain ⟨k₀, hk₀⟩ : ∃ k₀, saveState s.kernel s.cpu 32 er' = k₀ := ⟨_, rfl⟩
    have hiv : (k₀.tcb s.active).ivect = 32 := by
      rw [← hk₀]
      exact congrArg Tcb.ivect (Kernel.updTcb_self ..)
    have hs₀ : Sound P k₀ := hs.sound.effects (A := fun _ => True)
      (.single (e := .regs s.active s.cpu 32 0 er') trivial trivial (congrArg some hk₀))
    have hlive : k₀.Live t := by
      rw [← hk₀]
      exact h.live hs hact
    have hact₀ : k₀.activeTcb = t := by
      rw [← hk₀]
      exact hact
    rw [hk₀, fault, hiv, if_pos rfl] at hk
    obtain ⟨k₁, k₂, g, hsch⟩ := hs₀.schedule
    obtain ⟨hen, hk₂⟩ := hsch.requeue (hact₀ ▸ h.ne_null)
    have hsp₁ := Effect.spec hs₀ (e := .unload) trivial hsch.unload
    have hs₁ : Sound P k₁ := hs₀.effects (A := fun _ => True)
      (.single (e := .unload) trivial trivial hsch.unload)
    have hsp₂ := Effect.spec hs₁ hen hk₂
    have hs₂ : Sound P k₂ := hs₁.effects (A := fun _ => True) (.single hen trivial hk₂)
    have hsp₃ := Effect.spec hs₂ hsch.enabled hsch.load
    rw [← hk] at hsp₃
    have hl₁ : k₁.Live t := by
      rwa [Kernel.Live, hsp₁.table]
    have hl₂ : k₂.Live t := by
      rwa [Kernel.Live, hsp₂.table]
    have hq : k₂.state t = tcbStateQueued :=
      (hsp₂.state t (Or.inl ⟨hl₂, hl₁⟩)).trans (if_pos hact₀.symm)
    rcases hsch.choice with ⟨rfl, -⟩ | ⟨rfl, -⟩
    · have hl₃ : s'.kernel.Live t := by
        rwa [Kernel.Live, hsp₃.table]
      refine ⟨hl₃, fun hd => ?_⟩
      rw [hsp₃.state t (Or.inl ⟨hl₃, hl₂⟩), Effect.stateOf] at hd
      split_ifs at hd
      · exact hd.ne_running rfl
      · exact hd.ne_queued hq
    · have hl₃ : s'.kernel.Live t := by
        rwa [Kernel.Live, hsp₃.table]
      refine ⟨hl₃, fun hd => ?_⟩
      rw [hsp₃.state t (Or.inl ⟨hl₃, hl₂⟩)] at hd
      exact hd.ne_queued hq
  | _ => exact hpre.elim

end Step

section Start

/-- The entries that leave 0 in rdi yield only a thread that is not RUNNING. -/
theorem Call.Suspends.entry (h : c.Suspends k) : ∃ y, c.entry = some y ∧ y.yieldCode = 0 := by
  cases c with
  | threadPause thread => exact ⟨_, rfl, rfl⟩
  | threadExit => exact ⟨_, rfl, rfl⟩
  | interruptWait => exact ⟨_, rfl, rfl⟩
  | _ => exact h.elim

theorem Caller.suspended (h : Caller P k) (hc : c.Suspends k) {r : Reply}
    (hb : c.body P.pages k = some (r, k')) : Dormant (k'.state k.activeTcb) := by
  cases c with
  | threadPause thread =>
    have hself : target k thread = k.activeTcb := hc
    have hrun : (k.tcb k.activeTcb).state = tcbStateRunning := h.running
    have hpause : apilogicThreadPause k thread =
        some (true, k.setState k.activeTcb tcbStateSuspended) := by
      rw [target] at hself
      simp only [apilogicThreadPause, hself, hrun]
      rw [if_neg h.live.1]
      rfl
    rw [Call.body, hpause] at hb
    obtain rfl := congrArg Prod.snd (Option.some.inj hb)
    rw [Kernel.setState_state, if_pos rfl]
    exact Or.inl rfl
  | threadExit =>
    obtain rfl := congrArg Prod.snd (Option.some.inj hb)
    obtain ⟨k₁, k₂, he⟩ := h.exits
    have hsus : k₂.state k.activeTcb = tcbStateSuspended := (he.state _).trans (if_pos rfl)
    have hs₁ : Sound P k₁ := h.sound.effects (A := fun _ => True)
      (.single he.shift trivial (congrArg some he.suspended))
    have hs₂ : Sound P k₂ := hs₁.effects (A := fun _ => True)
      (.single he.report trivial (congrArg some he.queued))
    have hlive : k₂.Live k.activeTcb := by
      have h1 := (Effect.spec h.sound he.shift (congrArg some he.suspended)).table
      have h2 := (Effect.spec hs₁ he.report (congrArg some he.queued)).table
      rw [Kernel.Live, h2, h1]
      exact h.live
    have hkeep := he.fire.keep (I := fun a => a.Live k.activeTcb ∧ Dormant (a.state k.activeTcb))
      ⟨hlive, Or.inl hsus⟩ hs₂ fun a f b ha hsa hen hm hb => ?_
    · exact hkeep.2
    have hl : b.Live k.activeTcb := by
      refine Effect.live_mono hsa hen hb (fun y => ?_) ha.1
      rintro rfl
      exact hm
    refine ⟨hl, Effect.dormant hsa hen hb (fun hq => ?_) (fun _ => ha.2) hl⟩
    cases f with
    | wake v y j =>
      obtain rfl : y = k.activeTcb := hq
      exact absurd (hsus.symm.trans hm.2.2) (by decide)
    | ready y => exact hm
    | _ => exact hq
  | interruptWait =>
    obtain rfl := congrArg Prod.snd (Option.some.inj hb)
    have hnone : (slots.find? fun i => (k.tcb k.activeTcb).tap i &&& 0x8000 ≠ 0) = none :=
      List.find?_eq_none.mpr fun i _ hi => (of_decide_eq_true hi) (hc i)
    simp only [hnone]
    rw [Kernel.setState_state, if_pos rfl]
    exact Or.inr (Or.inl rfl)
  | _ => exact hc.elim

/-- A thread is at rest when the body has put it to rest. -/
theorem SysSound.suspended (hs : SysSound P s) (hc : c.Suspends s.kernel)
    (hx : c.entry = some x) (hst : s.step P (.call c) = some s') : s'.Rests P s.active x := by
  obtain ⟨hcall, -, r, hb⟩ := hs.step_call hst
  obtain ⟨r', hb', hact, -, -, hentry, -⟩ := call_shape hs hst
  exact ⟨hs.active, (Sys.call_cases hst).2.1, fun _ => hcall.suspended hc hb, fun _ => hentry x hx⟩

end Start
end Pinion64
