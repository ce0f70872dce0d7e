import Pinion64.GateSound

/-! A thread gets back the registers with which it was interrupted, whoever has run in between. -/
namespace Pinion64
open Intrusive Transition

section Definitions

/-- The registers with which a thread goes on; at the stub of its trap, they lie on the core and in the
frame. -/
def Gated.threadRegs (g : Gated) (t : Ptr) : Regs :=
  if (g.stub t).isSome then g.saved.threadRegs t else g.sys.threadRegs t

/-- A run beside the registers that a thread is to find when it is active again. -/
structure Kept where
  gated : Gated
  regs : Regs

namespace Kept

/-- The registers with which the event finds the thread. -/
def found (w : Kept) (t : Ptr) : Moment → Regs
  | .event e => if t = w.gated.active then (w.gated.sys.struck e).cpu else w.regs
  | .stub => w.regs

/-- An interruption gives the registers, and every event what it writes to them. -/
def step (P : Platform) (H : Handlers) (t : Ptr) (w : Kept) (m : Moment) : Option Kept :=
  (w.gated.step P H m).map fun g => {
    gated := g
    regs :=
      match w.gated.event m with
      | some e => w.gated.sys.written t e (w.found t m)
      | none => w.found t m }

/-- The thread does nothing of its own accord, and is not reaped; and nothing strikes it before the cli
of a stub. -/
def Idle (t : Ptr) (w : Kept) : Moment → Prop
  | .event e => (t = w.gated.active → e.Interrupts ∧ w.gated.stub t = none) ∧
      ¬ w.gated.sys.Reaps t e
  | .stub => True

end Kept

end Definitions

variable {P : Platform} {H : Handlers} {s s' : Sys} {g g' : Gated} {m : Moment} {e : Event} {t : Ptr}
  {v : BitVec 32} {st : AtStub} {w w' : Kept}

theorem Gated.threadRegs_none (h : g.stub t = none) : g.threadRegs t = g.sys.threadRegs t := by
  rw [threadRegs, h]
  rfl

theorem Gated.threadRegs_some (h : g.stub t = some st) : g.threadRegs t = g.saved.threadRegs t := by
  rw [threadRegs, h]
  rfl

theorem Quiet.framed (h : Quiet s.kernel) (error : Option Word) : Quiet (s.framed error).kernel := by
  intro t hl hw j
  have htap : ((s.framed error).kernel.tcb t).tap = (s.kernel.tcb t).tap :=
    s.kernel.updTcb_proj s.active t (fun b => b.pushFrame s.cpu error) Tcb.tap fun _ => rfl
  rw [s.framed_state error t] at hw
  rw [htap]
  exact h t hl hw j

/-- The stub finds the registers with which the trap has found its thread. -/
theorem Gated.Sound.struck_saved (h : g.Sound P) (hst : g.stub g.active = some st)
    (hs : st.struck = none) (hc : s.cpu = g.saved.cpu) (ha : s.active = g.active)
    (hp : s.pos g.active = g.sys.pos g.active ∨ s.pos g.active = .user) :
    (s.struck (g.trapEvent st)).cpu = g.saved.cpu := by
  rw [trapEvent, AtStub.event]
  split_ifs with hv
  · rw [Sys.struck, Sys.yieldRegs, ha]
    cases hx : s.pos g.active with
    | tail x =>
      have hpos : g.sys.pos g.active = .tail x := by
        rcases hp with hp | hp
        · exact hp.symm.trans hx
        · rw [hp] at hx
          cases hx
      have hcode : g.saved.cpu.rdi = x.yieldCode := h.code st x hst (Or.inl hv) (Or.inl hs) hpos
      simp only [hc, Regs.rdi_self hcode]
    | _ => exact hc
  · rw [Sys.struck]
    split_ifs
    · exact hc
    · exact hc

theorem AtStub.event_interrupts (st : AtStub) {error cr2 : Word} : (st.event error cr2).Interrupts := by
  rw [event]
  split_ifs <;> trivial

theorem AtStub.event_ne_call (st : AtStub) {error cr2 : Word} {c : Call} :
    st.event error cr2 ≠ .call c := by
  rw [event]
  split_ifs <;> simp

/-- What an event writes to a block is told by the kernel. -/
theorem written_kernel {r : Regs} (h : s.kernel = s'.kernel) : s.written t e r = s'.written t e r := by
  obtain ⟨k, cpu, cr2, pos, halted⟩ := s
  obtain rfl : k = s'.kernel := h
  rfl

/-- A thread at the stub of its trap, or at none, goes on with the registers that are told. -/
structure Kept.Holds (P : Platform) (H : Handlers) (t : Ptr) (w : Kept) : Prop where
  sound : w.gated.Sound P
  quiet : Quiet w.gated.sys.kernel
  live : w.gated.sys.kernel.Live t
  stub : ∀ st, w.gated.stub t = some st → st.struck = none ∧
    w.gated.sys.cpu.rip = H.stub st.vector ∧ w.gated.sys.cpu.rsp = stubStack t st.vector
  regs : w.gated.threadRegs t = w.regs

namespace Kept.Holds

variable (h : w.Holds P H t)
include h

theorem away (ht : t ≠ w.gated.active) : w.gated.stub t = none := by
  cases hs : w.gated.stub t with
  | none => rfl
  | some st => exact absurd (h.sound.own t st hs (h.stub st hs).1) ht

theorem gate (hv : e.trap = some v) (hst : w.gated.sys.step P e = some s)
    (hin : (w.gated.stub w.gated.active).isSome → e.comesIn = true)
    (hi : t = w.gated.active → w.gated.stub t = none) :
    Kept.Holds P H t ⟨w.gated.gate H v e, w.found t (.event e)⟩ := by
  have hk := w.gated.sys.struck_kernel e
  refine ⟨h.sound.gate hv hst hin, ?_, (w.gated.gate_live t).mpr h.live, fun st hs => ?_, ?_⟩
  · exact Quiet.framed (hk.symm ▸ h.quiet) _
  · rcases Gated.setStub_some hs with ⟨ht, hx⟩ | ⟨ht, hx⟩
    · rw [← Option.some.inj hx, ← ht, hi ht]
      refine ⟨rfl, rfl, ?_⟩
      rw [ht]
      rfl
    · rw [h.away ht] at hx
      cases hx
  · by_cases ht : t = w.gated.active
    · have hstub := w.gated.gate_stub (H := H) (v := v) (e := e)
      rw [← ht] at hstub
      rw [Gated.threadRegs_some hstub, w.gated.gate_saved, Kept.found, if_pos ht]
      exact Sys.threadRegs_of_eq (ht.trans (w.gated.sys.struck_active e).symm)
    · have hstub : (w.gated.gate H v e).stub t = none :=
        (w.gated.gate_stub_ne ht).trans (h.away ht)
      have hne : t ≠ (w.gated.gate H v e).sys.active := fun hc => ht (hc.trans w.gated.gate_active)
      rw [Gated.threadRegs_none hstub, Sys.threadRegs_of_ne hne, Kept.found, if_neg ht, ← h.regs,
        Gated.threadRegs_none (h.away ht), Sys.threadRegs_of_ne ht, w.gated.gate_block_ne ht]

theorem strike (hv : e.trap = none) (hst : w.gated.sys.step P e = some s)
    (hin : (w.gated.stub w.gated.active).isSome → e.comesIn = true)
    (hi : t = w.gated.active → e.Interrupts ∧ w.gated.stub t = none)
    (hreap : ¬ w.gated.sys.Reaps t e) :
    Kept.Holds P H t ⟨w.gated.strike P s e, w.gated.sys.written t e (w.found t (.event e))⟩ := by
  have hnone : w.gated.stub t = none := by
    by_cases ht : t = w.gated.active
    · exact (hi ht).2
    · exact h.away ht
  have hstub : (w.gated.strike P s e).stub t = none := by
    cases hs : (w.gated.strike P s e).stub t with
    | none => rfl
    | some st =>
      rcases Gated.strike_stub hs with ⟨-, hx⟩ | ⟨-, -, st₀, hx, -⟩
      · exact absurd (hnone.symm.trans hx) (by simp)
      · exact absurd (hnone.symm.trans hx) (by simp)
  have hsys : (w.gated.strike P s e).sys = s := w.gated.strike_sys s e
  have hlive := live_unless_reaped h.sound.sys hst h.live hreap
  refine ⟨h.sound.strike hv hst hin, ?_, ?_, fun st hs => ?_, ?_⟩
  · rw [hsys]
    exact h.quiet.step h.sound.sys hst
  · rw [hsys]
    exact hlive
  · rw [hstub] at hs
    cases hs
  · rw [Gated.threadRegs_none hstub, hsys,
      written_regs h.sound.sys h.quiet hst h.live hlive fun ht => (hi ht).1, struck_threadRegs,
      Kept.found, ← h.regs, Gated.threadRegs_none hnone]
    rfl

theorem run (hst : w.gated.stub w.gated.active = some st) (hrun : w.gated.sys.halted = false) :
    Kept.Holds P H t ⟨w.gated.run P st, w.gated.sys.written t (w.gated.trapEvent st) w.regs⟩ := by
  obtain ⟨s₀, s₁, hs₀, hk₀, hc₀, hp₀, hst₀, hk₁, hc₁⟩ := h.sound.completes_kernel hst hrun
  have hact₀ : s₀.active = w.gated.active := congrArg Kernel.activeTcb hk₀
  have hlive₀ : s₀.kernel.Live t := hk₀.symm ▸ h.live
  have hquiet₀ : Quiet s₀.kernel := hk₀.symm ▸ h.quiet
  have hlive₁ := live_unless_reaped hs₀ hst₀ hlive₀ fun hc => by
    obtain ⟨th, he, -⟩ := hc
    exact st.event_ne_call he
  have hstub : (w.gated.run P st).stub t = none := by
    cases hs : (w.gated.run P st).stub t with
    | none => rfl
    | some st' =>
      rcases Gated.run_stub hs with ⟨ht, hx⟩ | ⟨ht, u, hu, -⟩
      · rw [h.away ht] at hx
        cases hx
      · rw [(h.stub st (ht ▸ hst)).1] at hu
        cases hu
  have hregs₁ : (w.gated.run P st).sys.threadRegs t = s₁.threadRegs t :=
    Sys.threadRegs_congr hk₁.symm hc₁.symm
  have hfound : (s₀.struck (w.gated.trapEvent st)).threadRegs t = w.regs := by
    rw [struck_threadRegs, hact₀, ← h.regs]
    split_ifs with ht
    · have hs : st.struck = none := (h.stub st (ht ▸ hst)).1
      rw [Gated.threadRegs_some (ht ▸ hst), Sys.threadRegs_of_eq (s := w.gated.saved) ht]
      refine h.sound.struck_saved hst hs hc₀ hact₀ ?_
      exact (hp₀ w.gated.active).imp id fun hc => hc.2.1
    · rw [Gated.threadRegs_none (h.away ht), Sys.threadRegs_of_ne ht,
        Sys.threadRegs_of_ne (hact₀.symm ▸ ht), hk₀]
  refine ⟨h.sound.run hst, ?_, ?_, fun st' hs => ?_, ?_⟩
  · exact hk₁ ▸ hquiet₀.step hs₀ hst₀
  · exact hk₁ ▸ hlive₁
  · rw [hstub] at hs
    cases hs
  · rw [Gated.threadRegs_none hstub, hregs₁,
      written_regs hs₀ hquiet₀ hst₀ hlive₀ hlive₁ fun _ => st.event_interrupts, hfound]
    exact written_kernel hk₀

end Kept.Holds

theorem Kept.Holds.step (h : w.Holds P H t) (hok : w.Idle t m) (hw : w.step P H t m = some w') :
    w'.Holds P H t := by
  obtain ⟨g', hst, rfl⟩ := Option.map_eq_some_iff.mp hw
  cases m with
  | event e =>
    obtain ⟨hi, hreap⟩ := hok
    obtain ⟨hin, s, hs, ⟨v, hv, rfl⟩ | ⟨hv, rfl⟩⟩ := Gated.step_event hst
    · have hnone : w.gated.event (.event e) = none := by
        rw [Gated.event, hv]
        rfl
      simp only [hnone]
      exact h.gate hv hs hin fun ht => (hi ht).2
    · simp only [Gated.event_plain hv]
      exact h.strike hv hs hin hi hreap
  | stub =>
    obtain ⟨st, hs, hrun, rfl⟩ := Gated.step_stub hst
    simp only [Gated.event_stub hs]
    exact h.run hs hrun

theorem Boot.gated_quiet (b : Boot P) : Quiet b.gated.sys.kernel := by
  have hbooted : Booted P b.sys.kernel := b.init_booted
  exact hbooted.noticed.quiet

theorem Gated.Sound.quiet (h : g.Sound P) (hq : Quiet g.sys.kernel) (hst : g.step P H m = some g') :
    Quiet g'.sys.kernel := by
  cases m with
  | event e =>
    obtain ⟨-, s, hs, ⟨v, -, rfl⟩ | ⟨-, rfl⟩⟩ := Gated.step_event hst
    · exact Quiet.framed (g.sys.struck_kernel e ▸ hq) _
    · rw [g.strike_sys]
      exact hq.step h.sys hs
  | stub =>
    obtain ⟨st, hs, hrun, rfl⟩ := Gated.step_stub hst
    obtain ⟨s₀, s₁, hs₀, hk₀, -, -, hst₀, hk₁, -⟩ := h.completes_kernel hs hrun
    exact hk₁ ▸ (hk₀ ▸ hq : Quiet s₀.kernel).step hs₀ hst₀

/-- Only rax is written to an interrupted thread. -/
theorem written_frame (s : Sys) (t : Ptr) (v : BitVec 32) (er cr2 : Word) (r : Regs) :
    (s.written t (.interrupt v er cr2) r).rip = r.rip ∧
      (s.written t (.interrupt v er cr2) r).rsp = r.rsp := by
  simp only [Sys.written]
  split <;> exact ⟨rfl, rfl⟩

theorem Gated.saved_frame (g : Gated) (t : Ptr) :
    (g.saved.threadRegs t).rip = (g.sys.kernel.tcb t).regs.rip ∧
      (g.saved.threadRegs t).rsp = (g.sys.kernel.tcb t).regs.rsp := by
  by_cases ht : t = g.saved.active
  · rw [Sys.threadRegs_of_eq ht, ht]
    exact ⟨rfl, rfl⟩
  · rw [Sys.threadRegs_of_ne ht]
    exact ⟨rfl, rfl⟩

/-- What strikes a thread at a stub sends it there again. -/
theorem Gated.Sound.sent (h : g.Sound P) (hq : Quiet g.sys.kernel)
    (hl : g.sys.kernel.Live g.active) (hst : g.stub g.active = some st)
    (hb : g.step P H (.event e) = some g') :
    (g'.threadRegs g.active).rip = g.sys.cpu.rip ∧ (g'.threadRegs g.active).rsp = g.sys.cpu.rsp := by
  obtain ⟨hin, s, hs, h'⟩ := Gated.step_event hb
  have hcome := hin (by rw [hst]; rfl)
  cases e with
  | interrupt w er cr2 =>
    rcases h' with ⟨v, hv, rfl⟩ | ⟨hv, rfl⟩
    · have hcpu : (g.sys.struck (.interrupt w er cr2)).cpu = g.sys.cpu := by
        rw [Sys.struck]
        split_ifs <;> rfl
      have hactive : g.active = ((g.sys.struck (.interrupt w er cr2)).framed (cpuError v er)).active :=
        (g.sys.struck_active (.interrupt w er cr2)).symm
      rw [Gated.threadRegs_some g.gate_stub, g.gate_saved]
      refine (Sys.threadRegs_of_eq hactive).symm ▸ ?_
      exact ⟨congrArg Regs.rip hcpu, congrArg Regs.rsp hcpu⟩
    · have hlive := live_unless_reaped h.sys hs hl fun hc => by
        obtain ⟨th, he, -⟩ := hc
        cases he
      have hregs := written_regs h.sys hq hs hl hlive fun _ => trivial
      rw [Sys.struck_interrupt, Sys.threadRegs_of_eq (s := g.sys) (p := g.active) rfl] at hregs
      obtain ⟨hrip, hrsp⟩ := written_frame g.sys g.active w er cr2 g.sys.cpu
      rw [← hregs] at hrip hrsp
      have hsys : (g.strike P s (.interrupt w er cr2)).sys = s := g.strike_sys ..
      cases hx : (g.strike P s (.interrupt w er cr2)).stub g.active with
      | none =>
        rw [Gated.threadRegs_none hx, hsys]
        exact ⟨hrip, hrsp⟩
      | some st' =>
        -- a thread that goes on at once has its registers from its block, too
        have hblock : s.threadRegs g.active = (s.kernel.tcb g.active).regs := by
          by_cases ht : g.active = s.active
          · obtain ⟨-, x, er', rfl⟩ := Sys.interrupt_cases hs
            have hi : (Sys.enter P { g.sys with cr2 := x } w er').active ≠ P.idleTcb := by
              rw [← ht]
              obtain ⟨run, free, hc⟩ := h.sys.sound
              exact hc.live_ne_idle hl
            rw [Sys.threadRegs_of_eq ht, ht]
            exact enter_cpu (s := { g.sys with cr2 := x }) w er' h.sys.sound h.sys.active hi
          · exact Sys.threadRegs_of_ne ht
        obtain ⟨hrip', hrsp'⟩ := (g.strike P s (.interrupt w er cr2)).saved_frame g.active
        rw [hsys, ← hblock] at hrip' hrsp'
        rw [Gated.threadRegs_some hx]
        exact ⟨hrip'.trans hrip, hrsp'.trans hrsp⟩
  | _ => cases hcome

/-- Whatever the other threads do, and however often they are interrupted and rescheduled, a thread
gets back the registers with which it was interrupted, but for the states that are pushed to it and
the vector that wakes it, as long as nothing strikes it between a trap gate and the cli of the
stub. What does so sends it to the stub instead. -/
theorem registers_kept (b : Boot P) (H : Handlers) (h : Run (Gated.step P H) Free b.gated g)
    (hl : g.sys.kernel.Live t) (ht : g.stub t = none)
    (hr : Run (Kept.step P H t) (Kept.Idle t) ⟨g, g.threadRegs t⟩ w) :
    (w.gated.sys.kernel.Live t ∧ w.gated.threadRegs t = w.regs) ∧
      ∀ st e g', t = w.gated.active → w.gated.stub t = some st →
        w.gated.step P H (.event e) = some g' →
        (g'.threadRegs t).rip = H.stub st.vector ∧
          (g'.threadRegs t).rsp = stubStack t st.vector := by
  have h0 : b.gated.Sound P ∧ Quiet b.gated.sys.kernel := And.intro b.gated_sound b.gated_quiet
  have hg : g.Sound P ∧ Quiet g.sys.kernel :=
    h.invariant (I := fun g => g.Sound P ∧ Quiet g.sys.kernel) h0
      fun _ _ _ ha _ hst => ⟨ha.1.step hst, ha.1.quiet ha.2 hst⟩
  have hall : w.Holds P H t := hr.invariant (I := Kept.Holds P H t)
    ⟨hg.1, hg.2, hl, fun st hs => absurd (ht.symm.trans hs) (by simp), rfl⟩
    fun _ _ _ ha hok hst => ha.step hok hst
  refine ⟨⟨hall.live, hall.regs⟩, fun st e g' hact hst hb => ?_⟩
  obtain ⟨-, hrip, hrsp⟩ := hall.stub st hst
  subst hact
  obtain ⟨hrip', hrsp'⟩ := hall.sound.sent hall.quiet hall.live hst hb
  exact ⟨hrip'.trans hrip, hrsp'.trans hrsp⟩

/-- The guard of Kept.Idle for runs without a reap. -/
def idleTest (t : Ptr) (w : Kept) : Moment → Bool
  | .event (.call (.threadReap _)) => false
  | .event e => decide (t = w.gated.active → e.Interrupts ∧ (w.gated.stub t).isNone)
  | .stub => true

theorem idle_of_test (h : idleTest t w m = true) : w.Idle t m := by
  cases m with
  | stub => trivial
  | event e =>
    have hi : ∀ e : Event, decide (t = w.gated.active → e.Interrupts ∧ (w.gated.stub t).isNone) = true →
        t = w.gated.active → e.Interrupts ∧ w.gated.stub t = none := fun e h ht =>
      (of_decide_eq_true h ht).imp id Option.isNone_iff_eq_none.mp
    constructor
    · cases e with
      | call c =>
        cases c with
        | threadReap th => cases h
        | _ => exact hi _ h
      | _ => exact hi _ h
    · rintro ⟨th, rfl, -⟩
      cases h

/-- A thread yields to another one, and preempts it when that one has computed; a tick behind the gate
of a yield sends it to the stub. -/
theorem registers_kept_two_threads :
    (∃ w : Kept, w.gated.active = lowBoot.sys.active ∧
      w.gated.threadRegs lowBoot.sys.active = w.regs) ∧
    ∃ g : Gated, (g.threadRegs lowBoot.sys.active).rip = lowHandlers.stub 0x100 ∧
      (g.threadRegs lowBoot.sys.active).rsp = stubStack lowBoot.sys.active 0x100 := by
  have hboot : lowBoot.gated.sys.kernel.Live lowBoot.sys.active :=
    ⟨lowBoot.sys_sound.active, 1, by decide, by decide +kernel⟩
  constructor
  · obtain ⟨g, hg, htest⟩ := Run.exists_of_exec (Gated.step lowPlatform lowHandlers) lowBoot.gated
      [.event (.call .threadCreate), .event .yield, .stub, .event .ret,
        .event (.call (.threadResume 2))]
      (fun g => decide (g.sys.kernel.tableEntry 1 = lowBoot.sys.active ∧
          (g.stub lowBoot.sys.active).isNone) &&
        (exec (Run.guarded (Kept.step lowPlatform lowHandlers lowBoot.sys.active)
          fun w m => idleTest lowBoot.sys.active w m = true) ⟨g, g.threadRegs lowBoot.sys.active⟩
          [.event .yield, .stub, .event (.run { zeroRegs with rax := 7 }),
            .event (.interrupt 32 0 0)]).any
            fun w : Kept => decide (w.gated.active = lowBoot.sys.active)) (by decide +kernel)
    obtain ⟨hfirst, htest⟩ := (Bool.and_eq_true _ _).mp htest
    obtain ⟨hentry, hnone⟩ := of_decide_eq_true hfirst
    obtain ⟨w, hr, hw⟩ := Run.exists_of_guarded _ _ _ _ _ htest
    have hlive : g.sys.kernel.Live lowBoot.sys.active :=
      ⟨lowBoot.sys_sound.active, 1, by decide, hentry⟩
    exact ⟨w, of_decide_eq_true hw, (registers_kept lowBoot lowHandlers hg hlive
      (Option.isNone_iff_eq_none.mp hnone) (hr.mono fun _ _ => idle_of_test)).1.2⟩
  · obtain ⟨w, hr, htest⟩ := Run.exists_of_guarded
      (Kept.step lowPlatform lowHandlers lowBoot.sys.active)
      (fun w m => idleTest lowBoot.sys.active w m = true)
      ⟨lowBoot.gated, lowBoot.gated.threadRegs lowBoot.sys.active⟩ [.event .yield]
      (fun w => decide (w.gated.active = lowBoot.sys.active) &&
        (w.gated.stub lowBoot.sys.active).any (fun st : AtStub => decide (st.vector = 0x100)) &&
        (w.gated.step lowPlatform lowHandlers (.event (.interrupt 32 0 0))).isSome)
      (by decide +kernel)
    obtain ⟨htest, hsome⟩ := (Bool.and_eq_true _ _).mp htest
    obtain ⟨hact, hany⟩ := (Bool.and_eq_true _ _).mp htest
    obtain ⟨st, hst, hv⟩ := (Option.any_eq_true _ _).mp hany
    obtain ⟨g', hb⟩ := Option.isSome_iff_exists.mp hsome
    have hsent := (registers_kept lowBoot lowHandlers .refl hboot rfl
      (hr.mono fun _ _ => idle_of_test)).2 st _ g' (of_decide_eq_true hact).symm hst hb
    rw [of_decide_eq_true hv] at hsent
    exact ⟨g', hsent⟩

end Pinion64
