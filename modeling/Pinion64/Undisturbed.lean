import Pinion64.Interrupted

/-! What stays as it is, however the threads and the interrupts take turns: the handle of a thread
that nobody reaps, a tap for a vector that nothing fires, and a kernel that comes back. The handler
drops an IRQ before its vector is looked at. -/
namespace Pinion64
open Transition

variable {P : Platform} {s s' : Sys} {e : Event} {p t : Ptr} {i : Fin 4} {v : BitVec 16}

section Handles

instance decReaps (s : Sys) (t : Ptr) : (e : Event) → Decidable (s.Reaps t e)
  | .call (.threadReap thread) =>
    decidable_of_iff (tcbGet s.kernel thread = t ∧ s.kernel.state t = tcbStateSuspended)
      ⟨fun h => ⟨thread, rfl, h⟩, by
        rintro ⟨_, he, h⟩
        cases he
        exact h⟩
  | .call .threadYield | .call .threadCreate | .call (.threadPause _) | .call (.threadResume _)
  | .call .threadExit | .call (.threadPullState ..) | .call (.threadPushState ..)
  | .call (.interruptSetTap ..) | .call (.interruptGetTap _) | .call (.interruptReset _)
  | .call .interruptWait | .call (.threadGet _) | .call (.faultGetPagefault _)
  | .call (.faultGetMiscfault _) | .call (.faultGetZombie _) | .call (.pageSet ..)
  | .call (.pageGet _) | .run _ | .interrupt .. | .yield | .ret =>
    .isFalse (by
      rintro ⟨_, he, -⟩
      cases he)

/-- A thread that is not reaped keeps its block and its number. -/
theorem handle_step (hs : SysSound P s) (hst : s.step P e = some s') (hl : s.kernel.Live t)
    (hr : ¬ s.Reaps t e) : s'.kernel.Live t ∧ (s'.kernel.tcb t).id = (s.kernel.tcb t).id := by
  by_cases hcall : ∃ th, e = .call (.threadReap th) ∧ tcbGet s.kernel th = t
  · obtain ⟨th, rfl, rfl⟩ := hcall
    rw [reap_refused hs hst hl fun hc => hr ⟨th, rfl, rfl, hc⟩]
    exact ⟨hl, rfl⟩
  · refine (hs.step hst).2.keep (I := fun a => a.Live t ∧ (a.tcb t).id = (s.kernel.tcb t).id)
      ⟨hl, rfl⟩ hs.sound fun a f b ha hsa he hm hb => ?_
    have hlive := Effect.live_of_ne hsa he hb (fun hf => by
      subst hf
      obtain ⟨th, rfl, hth⟩ := hm.reap
      exact hcall ⟨th, rfl, hth.symm⟩) ha.1
    exact ⟨hlive, (Effect.data hsa he hb (Or.inl ⟨hlive, ha.1⟩)).1.trans ha.2⟩

/-- A handle names the same thread from one moment to any later one, until the thread is reaped. -/
theorem handle_stable (b : Boot P) (h : Reach b s) (hl : s.kernel.Live t)
    (hr : Run (Sys.step P) (fun u e => ¬ u.Reaps t e) s s') :
    s'.kernel.Live t ∧ tcbGet s'.kernel (s.kernel.tcb t).id = t := by
  have hinv : SysSound P s' ∧ s'.kernel.Live t ∧ (s'.kernel.tcb t).id = (s.kernel.tcb t).id := by
    refine hr.invariant (I := fun u => SysSound P u ∧ u.kernel.Live t ∧
      (u.kernel.tcb t).id = (s.kernel.tcb t).id) ⟨h.sound, hl, rfl⟩ fun u e u' hu hok hst => ?_
    obtain ⟨hsound, hlive, hid⟩ := hu
    obtain ⟨hlive', hid'⟩ := handle_step hsound hst hlive hok
    exact ⟨(hsound.step hst).1, hlive', hid'.trans hid⟩
  obtain ⟨hsound, hlive, hid⟩ := hinv
  obtain ⟨run, free, hc⟩ := hsound.sound
  exact ⟨hlive, hid ▸ hc.get_id hlive⟩

/-- The handle of a new thread is still good after the thread has run. -/
theorem handle_stable_new_thread : ∃ s s' : Sys, tcbGet s.kernel 2 ≠ 0 ∧
    s'.active = tcbGet s.kernel 2 ∧ tcbGet s'.kernel 2 = tcbGet s.kernel 2 := by
  obtain ⟨s, hs, htest⟩ := Run.exists_of_exec (Sys.step lowPlatform) lowBoot.sys
    [.call .threadCreate, .yield, .ret]
    (fun s => decide (tcbGet s.kernel 2 ≠ 0 ∧ (s.kernel.tcb (tcbGet s.kernel 2)).id = 2) &&
      (exec (Run.guarded (Sys.step lowPlatform) fun u e => ¬ u.Reaps (tcbGet s.kernel 2) e) s
        [.call (.threadResume 2), .interrupt 32 0 0, .interrupt 32 0 0, .interrupt 32 0 0]).any
          fun u => decide (u.active = tcbGet s.kernel 2)) (by decide +kernel)
  obtain ⟨hfirst, htest⟩ := (Bool.and_eq_true _ _).mp htest
  obtain ⟨h0, hid⟩ := of_decide_eq_true hfirst
  obtain ⟨s', hr, hactive⟩ := Run.exists_of_guarded _ _ _ _ _ htest
  have hstable := handle_stable lowBoot hs (Coherent.get_live h0) hr
  rw [hid] at hstable
  exact ⟨s, s', h0, of_decide_eq_true hactive, hstable.2⟩

end Handles

section Taps

/-- A tap that is not flagged, for a vector that no queue fires. -/
def Silent (v : BitVec 16) : Prop := v &&& 0x8000 = 0 ∧ ∀ q : TcbQueue, v &&& 0x3FFF ≠ q.vector

instance : DecidablePred Silent := fun v =>
  inferInstanceAs (Decidable (v &&& 0x8000 = 0 ∧ ∀ q : TcbQueue, v &&& 0x3FFF ≠ q.vector))

/-- Without the flag there is nothing to take back. -/
theorem unflag_self (h : v &&& 0x8000 = 0) : v &&& ~~~0x8000 = v := by
  have hall : v &&& (0x8000 ||| ~~~0x8000) = v := by
    rw [show (0x8000 : BitVec 16) ||| ~~~0x8000 = BitVec.allOnes 16 by decide, BitVec.and_allOnes]
  rw [BitVec.and_or_distrib_left, h] at hall
  exact BitVec.zero_or.symm.trans hall

theorem silent_step (hs : SysSound P s) (hst : s.step P e = some s')
    (hv : Silent ((s.kernel.tcb p).tap i)) (hset : ¬ s.SetsTap p i e) :
    (s'.kernel.tcb p).tap i = (s.kernel.tcb p).tap i := by
  have hkeep : ((e.rewired s.kernel).tcb p).tap i = (s.kernel.tcb p).tap i := by
    rw [rewired_tap hset, unflag_self hv.1, ite_self]
  rw [tap_step hs hst p i, hkeep, if_neg]
  rintro ⟨q, -, -, hq⟩
  have hfound := List.find?_some hq
  simp only [decide_eq_true_eq, hkeep] at hfound
  exact hv.2 q hfound

/-- As long as its thread leaves it alone, a tap that is set to an IRQ, or to any other vector than
those of the three queues, stays as it is: interrupt_wait never finds it, whatever comes in. -/
theorem irq_never_heard (b : Boot P) (h : Reach b s) (p : Ptr) (i : Fin 4)
    (hv : Silent ((s.kernel.tcb p).tap i))
    (hr : Run (Sys.step P) (fun u e => ¬ u.SetsTap p i e) s s') :
    (s'.kernel.tcb p).tap i = (s.kernel.tcb p).tap i := by
  have hinv : SysSound P s' ∧ (s'.kernel.tcb p).tap i = (s.kernel.tcb p).tap i := by
    refine hr.invariant (I := fun u => SysSound P u ∧ (u.kernel.tcb p).tap i = (s.kernel.tcb p).tap i)
      ⟨h.sound, rfl⟩ fun u e u' hu hset hst => ?_
    obtain ⟨hsound, htap⟩ := hu
    exact ⟨(hsound.step hst).1, (silent_step hsound hst (htap ▸ hv) hset).trans htap⟩
  exact hinv.2

/-- The first thread waits for the keyboard, and its key is dropped. -/
theorem irq_never_heard_keyboard : ∃ s s', (s.kernel.tcb lowBoot.sys.active).tap 0 = 0x101 ∧
    Run (Sys.step lowPlatform) (fun u e => ¬ u.SetsTap lowBoot.sys.active 0 e) s s' ∧
    s'.active = lowPlatform.idleTcb ∧ (s'.kernel.tcb lowBoot.sys.active).tap 0 = 0x101 := by
  obtain ⟨s, s', hst, hrun, hidle⟩ := Run.exists_behind (Sys.step lowPlatform)
    (fun u e => ¬ u.SetsTap lowBoot.sys.active 0 e) lowBoot.sys (.call (.interruptSetTap 0 0x101))
    [.call .interruptWait, .yield, .interrupt 33 0 0]
    (fun s => decide (s.active = lowPlatform.idleTcb)) (by decide +kernel)
  have htap : (s.kernel.tcb lowBoot.sys.active).tap 0 = 0x101 := by
    have hany : ((Sys.step lowPlatform lowBoot.sys (.call (.interruptSetTap 0 0x101))).any
        fun u => decide ((u.kernel.tcb lowBoot.sys.active).tap 0 = 0x101)) = true := by
      decide +kernel
    rw [hst] at hany
    exact of_decide_eq_true hany
  exact ⟨s, s', htap, hrun, of_decide_eq_true hidle,
    (irq_never_heard lowBoot (.tail .refl trivial hst) _ 0 (by rw [htap]; decide) hrun).trans htap⟩

end Taps

section Halts

def Event.doubleFault : Event → Bool
  | interrupt v _ _ => decide (v = 8)
  | _ => false

theorem enter_halted (iv : BitVec 32) (error : Word) (hs : Sound P s.kernel) (ha : s.active ≠ 0)
    (h8 : iv ≠ 8) : (s.enter P iv error).halted = s.halted := by
  let k₀ := saveState s.kernel s.cpu iv error
  have hs₀ : Sound P k₀ := hs.effects (A := fun _ => True)
    (.single (e := .regs s.kernel.activeTcb s.cpu iv 0 error) trivial trivial rfl)
  have hiv : (k₀.tcb k₀.activeTcb).ivect = iv := congrArg Tcb.ivect (Kernel.updTcb_self ..)
  obtain ⟨-, hend⟩ := fault_effects hs₀ ha
  unfold Sys.enter
  dsimp only
  split
  · rfl
  · rfl
  · rename_i k heq
    have hhang := hend.hang (congrArg Prod.snd heq)
    exact absurd (hiv.symm.trans hhang.2) h8

theorem leaveEntry_halted (s : Sys) (k : Kernel) (c : Call) (r : Reply) :
    (s.leaveEntry k c r).halted = s.halted := by
  unfold Sys.leaveEntry
  split
  · split_ifs <;> rfl
  · split_ifs <;> rfl
  · rfl

theorem halted_step (hs : SysSound P s) (hst : s.step P e = some s')
    (h8 : e.doubleFault = false) : s'.halted = s.halted := by
  cases e with
  | run regs =>
    obtain ⟨-, rfl⟩ := Sys.run_cases hst
    rfl
  | call c =>
    obtain ⟨hp, hi, rfl⟩ := Sys.call_cases hst
    obtain ⟨r, k', hb, -⟩ := hs.call hp hi c
    simp only [Sys.call, hb]
    cases c.entry with
    | none => exact leaveEntry_halted ..
    | some x => exact leaveEntry_halted ..
  | interrupt v error cr2 =>
    obtain ⟨-, x, er, rfl⟩ := Sys.interrupt_cases hst
    exact enter_halted (s := { s with cr2 := x }) v er hs.sound hs.active (of_decide_eq_false h8)
  | yield =>
    rcases Sys.yield_cases hst with ⟨-, -, rfl⟩ | ⟨x, -, rfl⟩
    · exact enter_halted 0x100 0 hs.sound hs.active (by decide)
    · exact enter_halted (s := ({ s with cpu := { s.cpu with rdi := x.yieldCode } } : Sys).setPos
        s.active (.ret x)) 0x100 0 hs.sound hs.active (by decide)
  | ret =>
    obtain ⟨x, -, rfl⟩ := Sys.ret_cases hst
    rfl

/-- As long as no double fault comes in, the kernel comes back from every interrupt, and from every
call with an answer: the search of the run queue ends, and none of the loops in fault is reached. -/
theorem comes_back (b : Boot P)
    (hr : Run (Sys.step P) (fun _ e => e.doubleFault = false) b.sys s) :
    s.halted = false ∧ (s.pos s.active = .user → s.active ≠ P.idleTcb → ∀ c : Call,
      ∃ r k, c.body P.pages s.kernel = some (r, k)) := by
  have hinv : SysSound P s ∧ s.halted = false :=
    hr.invariant (I := fun u => SysSound P u ∧ u.halted = false) ⟨b.sys_sound, rfl⟩
      fun u e u' hu h8 hst => ⟨(hu.1.step hst).1, (halted_step hu.1 hst h8).trans hu.2⟩
  refine ⟨hinv.2, fun hp hi c => ?_⟩
  obtain ⟨r, k, hb, -⟩ := hinv.1.call hp hi c
  exact ⟨r, k, hb⟩

/-- A queued thread is paused. -/
theorem comes_back_pause : ∃ s : Sys, s.kernel.state (tcbGet s.kernel 2) = tcbStateQueued ∧
    ∃ r k, (Call.threadPause 2).body lowPlatform.pages s.kernel = some (r, k) := by
  obtain ⟨s, hr, hs⟩ := Run.exists_of_guarded (Sys.step lowPlatform)
    (fun _ e => e.doubleFault = false) lowBoot.sys
    [.call .threadCreate, .yield, .ret, .call (.threadResume 2), .yield, .interrupt 32 0 0, .ret]
    (fun s => decide (s.kernel.state (tcbGet s.kernel 2) = tcbStateQueued ∧
      s.pos s.active = .user ∧ s.active ≠ lowPlatform.idleTcb)) (by decide +kernel)
  obtain ⟨hq, hp, hi⟩ := of_decide_eq_true hs
  exact ⟨s, hq, (comes_back lowBoot hr).2 hp hi (.threadPause 2)⟩

end Halts
end Pinion64
