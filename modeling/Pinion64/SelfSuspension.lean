import Pinion64.GateSound

/-! Threads at rest, and the answers of wait, when interrupts also come in between a trap gate and the
cli of its stub. -/
namespace Pinion64
open Intrusive Transition

section Definitions

namespace Gated

/-- The thread is released by the event that the moment completes. -/
def Releases (g : Gated) (t : Ptr) (m : Moment) : Prop :=
  ∃ e, g.event m = some e ∧ g.sys.Releases t e

/-- The timer strikes a thread that is no longer RUNNING and has not come behind the cli of its trap:
it stands before the int 0xFF of its entry, or behind the gate. -/
def Preempts (g : Gated) : Moment → Prop
  | .event e => g.sys.Preempts e
  | .stub => False

/-- The timer does not strike the thread before the cli of its trap, its block comes without the upper
bits in its taps, and nobody pushes its rax while it stands inside wait and is suspended there. -/
def Genuine (P : Platform) (t : Ptr) (g : Gated) : Moment → Prop
  | .event e => g.sys.Genuine P t e
  | .stub => True

instance decReleases (g : Gated) (t : Ptr) (m : Moment) : Decidable (g.Releases t m) :=
  decidable_of_iff (((g.event m).any fun e => decide (g.sys.Releases t e)) = true)
    (by simp [Releases, Option.any_eq_true])

instance decPreempts (g : Gated) : (m : Moment) → Decidable (g.Preempts m)
  | .event e => inferInstanceAs (Decidable (g.sys.Preempts e))
  | .stub => instDecidableFalse

end Gated

/-- The running system with the vectors that have fired on a tap of one thread since it was made. -/
structure Listener where
  gated : Gated
  heard : BitVec 16 → Bool

namespace Listener

def start (g : Gated) : Listener := ⟨g, fun _ => false⟩

def hearing (w : Listener) : Hearing := ⟨w.gated.sys, w.heard⟩

def step (P : Platform) (H : Handlers) (t : Ptr) (w : Listener) (m : Moment) : Option Listener :=
  (w.gated.step P H m).map fun g => {
    gated := g
    heard := fun v =>
      match w.gated.event m with
      | some e => decide (w.gated.sys.Sounds e t v ∨ w.heard v = true ∧ ¬ w.gated.sys.Creates P t e)
      | none => w.heard v }

end Listener

end Definitions

variable {P : Platform} {H : Handlers} {g g' : Gated} {m : Moment} {e : Event} {t : Ptr} {x : Entry}
  {v : BitVec 32} {st : AtStub} {w w' : Listener}

section Rest

theorem Gated.trapEvent_lost (hc : ¬ (st.struck = none ∨ st.vector ≠ 0x100)) :
    g.trapEvent st = .yield := by
  rw [trapEvent, AtStub.event, if_pos (not_not.mp (not_or.mp hc).2)]

/-- The events of the system that the stub of a trap completes are no timer ticks. -/
theorem Gated.Sound.not_tick (h : g.Sound P) (hst : g.stub g.active = some st) {s : Sys} :
    ¬ s.Preempts (g.trapEvent st) := by
  rw [trapEvent, AtStub.event]
  split_ifs with hv
  · exact id
  · rintro ⟨h32, -⟩
    exact (h.vector _ _ hst).1.ne_irq (by rw [h32]; decide)

/-- Between the gates and the stubs, too, a thread at rest stays at rest until it is released, unless
the timer strikes it before the cli of its trap. -/
theorem Gated.Sound.rests (h : g.Sound P) (hr : g.sys.Rests P t x) (hx : x.yieldCode = 0)
    (hst : g.step P H m = some g') (hrel : ¬ g.Releases t m)
    (hpre : g.active = t → ¬ g.Preempts m) :
    g'.sys.Rests P t x ∧ (g'.active = t → g.active = t) := by
  cases m with
  | event e =>
    obtain ⟨-, s, hs, ⟨v, hv, rfl⟩ | ⟨hv, rfl⟩⟩ := Gated.step_event hst
    · have hact : (g.gate H v e).active = g.active := g.gate_active
      refine ⟨⟨hr.ne_null, hr.ne_idle, fun hl => ?_, fun ha => ?_⟩, fun ha => hact.symm.trans ha⟩
      · rw [g.gate_state]
        exact hr.rest ((g.gate_live t).mp hl)
      · rw [g.gate_pos]
        exact hr.core (hact.symm.trans ha)
    · rw [Gated.active, g.strike_sys]
      exact hr.step hx h.sys hs (fun hc => hrel ⟨e, Gated.event_plain hv, hc⟩) hpre
  | stub =>
    obtain ⟨st, hs, hrun, rfl⟩ := Gated.step_stub hst
    have hrel' : ¬ g.sys.Releases t (g.trapEvent st) := fun hc =>
      hrel ⟨_, Gated.event_stub hs, hc⟩
    by_cases hc : st.struck = none ∨ st.vector ≠ 0x100
    · have hsaved : g.saved.Rests P t x := ⟨hr.ne_null, hr.ne_idle, hr.rest, hr.core⟩
      exact hsaved.step hx (h.sys.cpu _) (h.completes hs hrun hc) hrel' fun _ => h.not_tick hs
    · -- a yield trap that has been struck takes its thread away all the same
      have hyield : g.trapEvent st = .yield := Gated.trapEvent_lost hc
      obtain ⟨s₀, s₁, hs₀, hk₀, -, hp₀, hst₀, hk₁, -⟩ := h.completes_kernel hs hrun
      have hact₀ : s₀.active = g.active := congrArg Kernel.activeTcb hk₀
      have hrest : s₀.Rests P t x := by
        refine ⟨hr.ne_null, hr.ne_idle, fun hl => ?_, fun ha => ?_⟩
        · rw [hk₀] at hl ⊢
          exact hr.rest hl
        · have ha' : g.active = t := hact₀.symm.trans ha
          rcases hp₀ t with hp | ⟨-, -, hrunning⟩
          · exact hp.trans (hr.core ha')
          · have hd := hr.rest (hr.live h.sys ha')
            rw [ha'] at hrunning
            exact absurd hrunning hd.ne_running
      have hrel₀ : ¬ s₀.Releases t (g.trapEvent st) := by
        rw [hyield]
        rintro (⟨-, hc⟩ | ⟨-, i, q, hc, -⟩)
        · exact hc
        · exact hc
      rw [hyield] at hst₀ hrel₀
      obtain ⟨hdorm, -⟩ := hrest.kernel_step hx hs₀ hst₀ hrel₀ fun _ => id
      have haway := hrest.yield_away hx hs₀ hst₀ hrel₀
      rw [hk₁] at hdorm
      rw [Sys.active, hk₁] at haway
      exact ⟨⟨hr.ne_null, hr.ne_idle, hdorm, fun ha => absurd ha haway⟩, fun ha => absurd ha haway⟩

end Rest

section Answer

/-- What the answer of wait depends on. -/
theorem Hearing.Hears.congr {w w' : Hearing} (h : w.Hears P t) (hs : SysSound P w'.sys)
    (hheard : w'.heard = w.heard) (hl : w'.sys.kernel.Live t → w.sys.kernel.Live t)
    (htap : (w'.sys.kernel.tcb t).tap = (w.sys.kernel.tcb t).tap)
    (hstate : w'.sys.kernel.state t = w.sys.kernel.state t)
    (hin : w'.sys.kernel.Live t → (w'.sys.pos t).InWait → (w.sys.pos t).InWait)
    (hrax : (w'.sys.threadRegs t).rax = (w.sys.threadRegs t).rax) : w'.Hears P t := by
  refine ⟨hs, fun v hv => h.queue v (hheard ▸ hv), fun hlive => ?_, fun hlive hw => ?_⟩
  · obtain ⟨hlow, hflag⟩ := h.flags (hl hlive)
    constructor
    · rw [htap]
      exact hlow
    · rw [htap, hheard]
      exact hflag
  · rw [Kernel.Listens, hstate, hrax]
    refine (h.answer (hl hlive) (hin hlive hw)).imp_right ?_
    rintro ⟨v, hv, hx⟩
    exact ⟨v, hheard ▸ hv, hx⟩

theorem Gated.gate_rax (g : Gated) (t : Ptr) :
    ((g.gate H v e).sys.threadRegs t).rax = (g.sys.threadRegs t).rax := by
  have hact : (g.gate H v e).sys.active = g.sys.active := g.gate_active
  rw [Sys.threadRegs, Sys.threadRegs, hact]
  split_ifs with ht
  · change (g.sys.struck e).cpu.rax = _
    cases e with
    | interrupt w er cr2 =>
      rw [Sys.struck]
      split_ifs <;> rfl
    | yield =>
      rw [Sys.struck, Sys.yieldRegs]
      split <;> rfl
    | _ => rfl
  · have hblock : (g.gate H v e).sys.kernel.tcb t = (g.sys.struck e).kernel.tcb t :=
      (g.sys.struck e).kernel.updTcb_of_ne _ t (fun b => b.pushFrame (g.sys.struck e).cpu
        (cpuError v e.error)) fun hc => ht (hc.trans (g.sys.struck_active e))
    rw [hblock, g.sys.struck_kernel]

theorem Gated.gate_tap (g : Gated) (t : Ptr) :
    ((g.gate H v e).sys.kernel.tcb t).tap = (g.sys.kernel.tcb t).tap := by
  rw [← g.sys.struck_kernel e]
  exact (g.sys.struck e).kernel.updTcb_proj _ t
    (fun b => b.pushFrame (g.sys.struck e).cpu (cpuError v e.error)) Tcb.tap fun _ => rfl

theorem Gated.saved_rax (g : Gated) (t : Ptr) :
    (g.saved.threadRegs t).rax = (g.sys.threadRegs t).rax := by
  rw [Sys.threadRegs, Sys.threadRegs]
  change Regs.rax (if t = g.sys.active then _ else _) = _
  split_ifs <;> rfl

/-- A yield trap fires nothing. -/
theorem hears_yield (s : Sys) (heard : BitVec 16 → Bool) (v : BitVec 16) :
    decide (s.Sounds .yield t v ∨ heard v = true ∧ ¬ s.Creates P t .yield) = heard v := by
  have hno : ¬ s.Sounds .yield t v := fun h => h.1
  have hnc : ¬ s.Creates P t .yield := id
  simp [hno, hnc]

theorem Gated.Sound.genuine_trap (h : g.Sound P) (hst : g.stub g.active = some st) :
    g.saved.Genuine P t (g.trapEvent st) := by
  have hno : ∀ c, g.trapEvent st ≠ .call c := by
    intro c
    rw [trapEvent, AtStub.event]
    split_ifs <;> simp
  refine ⟨fun _ => h.not_tick hst, fun hc => ?_, fun th cls sp b he => absurd he (hno _)⟩
  cases he : g.trapEvent st with
  | call c => exact absurd he (hno c)
  | _ =>
    rw [he] at hc
    exact hc.elim

/-- Who lives behind a yield trap that has been struck has lived before it, and stands where it
stood. -/
theorem Gated.Sound.lost_pos (h : g.Sound P) (hst : g.stub g.active = some st)
    (hrun : g.sys.halted = false) (hc : ¬ (st.struck = none ∨ st.vector ≠ 0x100))
    (hl : (g.run P st).sys.kernel.Live t) :
    g.sys.kernel.Live t ∧ (g.run P st).sys.pos t = g.sys.pos t := by
  obtain ⟨s₀, s₁, hs₀, hk₀, -, -, hst₀, hk₁, -⟩ := h.completes_kernel hst hrun
  rw [trapEvent_lost hc] at hst₀
  have hl₀ : g.sys.kernel.Live t := hk₀ ▸ step_live hs₀ hst₀ (by simp) (hk₁ ▸ hl)
  refine ⟨hl₀, ?_⟩
  have hb : g.behind st = g.saved :=
    (g.behind_cases st).resolve_right fun hbe => hc (Or.inl (by rw [hbe.1]))
  rw [g.run_sys, hb]
  exact (enter_kept (s := g.saved) _ _ h.sys.sound h.sys.active hl₀).2.1

structure Listener.Hears (P : Platform) (t : Ptr) (w : Listener) : Prop where
  sound : w.gated.Sound P
  hears : w.hearing.Hears P t

namespace Listener.Hears

/-- The answer of wait does not change behind a yield trap that has been struck. -/
theorem lost_yield (h : w.Hears P t) (hst : w.gated.stub w.gated.active = some st)
    (hrun : w.gated.sys.halted = false) (hc : ¬ (st.struck = none ∨ st.vector ≠ 0x100)) :
    (⟨(w.gated.run P st).sys, w.heard⟩ : Hearing).Hears P t := by
  obtain ⟨s₀, s₁, hs₀, hk₀, hc₀, hp₀, hst₀, hk₁, hc₁⟩ := h.sound.completes_kernel hst hrun
  rw [Gated.trapEvent_lost hc] at hst₀
  -- in the kernel the trap is that of a system without the struck frame
  have hrax₀ : (s₀.threadRegs t).rax = (w.gated.sys.threadRegs t).rax := by
    have hact₀ : s₀.active = w.gated.sys.active := congrArg Kernel.activeTcb hk₀
    rw [← w.gated.saved_rax t, Sys.threadRegs, hact₀, hk₀, hc₀]
    rfl
  have hhears₀ : (⟨s₀, w.heard⟩ : Hearing).Hears P t := by
    refine h.hears.congr hs₀ rfl (congrArg (fun k : Kernel => k.Live t) hk₀).mp
      (congrArg (fun k : Kernel => (k.tcb t).tap) hk₀)
      (congrArg (fun k : Kernel => k.state t) hk₀) (fun _ hin => ?_) hrax₀
    rcases hp₀ t with hp | ⟨-, hp, -⟩
    · exact (congrArg Pos.InWait hp).mp hin
    · exact absurd hp hin.ne_user
  have hheard : (fun v => decide (s₀.Sounds .yield t v ∨
      w.heard v = true ∧ ¬ s₀.Creates P t .yield)) = w.heard := funext fun v => hears_yield ..
  have hstep : (⟨s₀, w.heard⟩ : Hearing).step P t .yield = some ⟨s₁, w.heard⟩ := by
    rw [Hearing.step, hst₀]
    exact congrArg (fun heard => some (⟨s₁, heard⟩ : Hearing)) hheard
  have hgenuine : s₀.Genuine P t .yield :=
    ⟨fun _ => id, fun hc => hc.elim, fun _ _ _ _ he => by cases he⟩
  have hnext := hhears₀.step hgenuine hstep
  have hregs : (w.gated.run P st).sys.threadRegs t = s₁.threadRegs t :=
    Sys.threadRegs_congr hk₁.symm hc₁.symm
  have hkernel : (w.gated.run P st).sys.kernel = s₁.kernel := hk₁.symm
  refine ⟨(h.sound.run hst).sys, hnext.queue, fun hl => ?_, fun hl hin => ?_⟩
  · obtain ⟨hlow, hflag⟩ := hnext.flags (hkernel ▸ hl)
    constructor
    · rw [hkernel]
      exact hlow
    · rw [hkernel]
      exact hflag
  · obtain ⟨hl₀, hsame⟩ := h.sound.lost_pos hst hrun hc hl
    have hin' : (w.gated.sys.pos t).InWait := hsame ▸ hin
    obtain ⟨-, hpos₁, hrax₁⟩ := yield_rax hs₀ hst₀ (hk₀ ▸ hl₀)
    rw [hkernel, Hearing.Answers, hregs]
    rcases hp₀ t with hp | ⟨ht, -, hrunning⟩
    · have hin₀ : (s₀.pos t).InWait := hp.symm ▸ hin'
      have hin₁ : (s₁.pos t).InWait :=
        hin₀.yielded (hpos₁.imp id (Exists.imp fun _ => And.right))
      exact hnext.answer (hkernel ▸ hl) hin₁
    · -- a thread whose own trap is lost while it runs has been answered before
      refine Or.inr ?_
      have ha := (h.hears.answer hl₀ hin').resolve_left fun hwait => by
        have hrun' : w.gated.sys.kernel.state t = tcbStateRunning := ht ▸ hrunning
        rcases hwait with hwait | hwait
        · exact absurd (hrun'.symm.trans hwait) (by decide)
        · exact absurd (hrun'.symm.trans hwait) (by decide)
      rw [hrax₁, hrax₀]
      exact ha

theorem step (h : w.Hears P t) (hok : w.gated.Genuine P t m) (hw : w.step P H t m = some w') :
    w'.Hears P t := by
  obtain ⟨g', hst, rfl⟩ := Option.map_eq_some_iff.mp hw
  have hsound := h.sound.step hst
  refine ⟨hsound, ?_⟩
  rw [hearing]
  cases m with
  | event e =>
    obtain ⟨-, s, hs, ⟨v, hv, rfl⟩ | ⟨hv, rfl⟩⟩ := Gated.step_event hst
    · refine h.hears.congr hsound.sys ?_ (w.gated.gate_live t).mp (w.gated.gate_tap t)
        (w.gated.gate_state t) (fun _ hin => ?_) (w.gated.gate_rax t)
      · funext x
        simp only [Gated.event, hv, Option.isSome_some, if_pos, hearing]
      · exact congrFun w.gated.gate_pos t ▸ hin
    · have hstep : w.hearing.step P t e = some ⟨s, fun v =>
          decide (w.gated.sys.Sounds e t v ∨ w.heard v = true ∧ ¬ w.gated.sys.Creates P t e)⟩ :=
        Option.map_eq_some_iff.mpr ⟨s, hs, rfl⟩
      have hnext := h.hears.step hok hstep
      rw [w.gated.strike_sys]
      simp only [Gated.event_plain hv]
      exact hnext
  | stub =>
    obtain ⟨st, hs, hrun, rfl⟩ := Gated.step_stub hst
    simp only [Gated.event_stub hs]
    have hsys : SysSound P (w.gated.run P st).sys := hsound.sys
    by_cases hc : st.struck = none ∨ st.vector ≠ 0x100
    · have hsaved : (⟨w.gated.saved, w.heard⟩ : Hearing).Hears P t :=
        h.hears.congr (h.sound.sys.cpu _) rfl id rfl rfl (fun _ => id) (w.gated.saved_rax t)
      have hstep : (⟨w.gated.saved, w.heard⟩ : Hearing).step P t (w.gated.trapEvent st) =
          some ⟨(w.gated.run P st).sys, _⟩ :=
        Option.map_eq_some_iff.mpr ⟨_, h.sound.completes hs hrun hc, rfl⟩
      exact hsaved.step (h.sound.genuine_trap hs) hstep
    · have hyield : w.gated.trapEvent st = .yield := Gated.trapEvent_lost hc
      rw [hyield]
      simp only [hears_yield]
      exact h.lost_yield hs hrun hc

theorem start (b : Boot P) (hb : ∀ i, (b.sys.kernel.tcb b.sys.active).tap i &&& 0xC000 = 0) :
    (Listener.start b.gated).Hears P t :=
  ⟨b.gated_sound, Hearing.Hears.start b hb⟩

end Listener.Hears

/-- A thread that puts itself to rest stays off the run queue, is not made active again and does
not come back to user code until it is released, as long as the timer does not strike it between
the body and the cli of its trap; and the first such tick undoes it. Wait comes back only with a
vector that has fired on a tap of its caller, if the block of the caller came without flags and
nobody has pushed another rax. -/
theorem self_suspension_kept (b : Boot P) (H : Handlers) :
    (∀ g c g₀ g₁ x, Run (Gated.step P H) Free b.gated g → c.Suspends g.sys.kernel →
      c.entry = some x → g.step P H (.event (.call c)) = some g₀ →
      Run (Gated.step P H) (fun a m => ¬ a.Releases g.active m ∧
        (a.active = g.active → ¬ a.Preempts m)) g₀ g₁ →
      g₁.sys.Off g.active x ∧ ∀ m g', g₁.step P H m = some g' → ¬ g₁.Releases g.active m →
        (g'.sys.Off g.active x ∧ (g'.active = g.active → g₁.active = g.active) ↔
          ¬ (g₁.active = g.active ∧ g₁.Preempts m))) ∧
    ((∀ i, (b.sys.kernel.tcb b.sys.active).tap i &&& 0xC000 = 0) →
      ∀ t w, Run (Listener.step P H t) (fun w m => w.gated.Genuine P t m) (.start b.gated) w →
        w.gated.active = t → w.gated.sys.pos t = .ret .interruptWait →
        ∃ v, v ≠ 0 ∧ w.heard v = true ∧ w.gated.sys.cpu.rax = v.setWidth 64) := by
  constructor
  · intro g c g₀ g₁ x hr hc hx hst hrun
    have hzero : x.yieldCode = 0 := by
      obtain ⟨y, hy, h0⟩ := hc.entry
      obtain rfl := Option.some.inj (hx.symm.trans hy)
      exact h0
    have hg : g.Sound P := hr.invariant b.gated_sound fun _ _ _ ha _ hb => ha.step hb
    have hcall : g.sys.step P (.call c) = some g₀.sys := by
      obtain ⟨-, s, hs, ⟨v, hv, -⟩ | ⟨-, rfl⟩⟩ := Gated.step_event hst
      · cases hv
      · rw [g.strike_sys]
        exact hs
    have hboth : g₁.Sound P ∧ g₁.sys.Rests P g.active x :=
      hrun.invariant (I := fun a => a.Sound P ∧ a.sys.Rests P g.active x)
        ⟨hg.step hst, hg.sys.suspended hc hx hcall⟩ fun a m a' ha hok hb =>
          ⟨ha.1.step hb, (ha.1.rests ha.2 hzero hb hok.1 hok.2).1⟩
    obtain ⟨hs, hrest⟩ := hboth
    refine ⟨hrest.off hs.sys, fun m g' hb hrel => ⟨?_, fun hno => ?_⟩⟩
    · rintro ⟨hoff, -⟩ ⟨hact, hpre⟩
      cases m with
      | stub => exact hpre
      | event e =>
        obtain ⟨-, s, hs', ⟨v, hv, rfl⟩ | ⟨-, rfl⟩⟩ := Gated.step_event hb
        · cases e with
          | interrupt w er cr2 =>
            obtain ⟨rfl, -⟩ := hpre
            cases hv
          | _ => exact hpre
        · rw [g₁.strike_sys] at hoff
          obtain ⟨hl, hd⟩ := hrest.preempted hs.sys hact hs' hpre
          exact hd (hoff.rest hl)
    · obtain ⟨hrest', hback⟩ := hs.rests hrest hzero hb hrel fun hact hpre => hno ⟨hact, hpre⟩
      exact ⟨hrest'.off (hs.step hb).sys, hback⟩
  · intro hb t w hrun hact hret
    have hh : w.Hears P t := hrun.invariant (Listener.Hears.start b hb)
      fun _ _ _ ha hok hw => ha.step hok hw
    obtain ⟨v, hv, hrax⟩ := hh.hears.returned hact hret
    refine ⟨v, ?_, hv, hrax⟩
    obtain ⟨q, rfl⟩ := hh.hears.queue v hv
    cases q <;> decide

/-- The first thread exits, and waits, with a timer tick before its trap: exit returns to it, and
wait returns 0. It exits, with the tick behind the gate of its trap: it is dispatched again. -/
theorem tick_undoes_suspension :
    (¬ ∀ (P : Platform) (b : Boot P) (H : Handlers) g c g₀ g₁ x,
      Run (Gated.step P H) Free b.gated g → c.Suspends g.sys.kernel → c.entry = some x →
      g.step P H (.event (.call c)) = some g₀ →
      Run (Gated.step P H) (fun a m => ¬ a.Releases g.active m) g₀ g₁ → g₁.sys.Off g.active x) ∧
    (¬ ∀ (P : Platform) (b : Boot P) (H : Handlers) g c g₀ g₁ x,
      Run (Gated.step P H) Free b.gated g → c.Suspends g.sys.kernel → c.entry = some x →
      g.step P H (.event (.call c)) = some g₀ →
      Run (Gated.step P H) (fun a m => ¬ a.Releases g.active m ∧
        ((a.stub a.active).isNone → ¬ a.Preempts m)) g₀ g₁ → g₁.sys.Off g.active x) ∧
    ¬ ∀ (P : Platform) (b : Boot P) (H : Handlers) t w,
      Run (Listener.step P H t) Free (.start b.gated) w → w.gated.active = t →
      w.gated.sys.pos t = .ret .interruptWait →
      ∃ v, v ≠ 0 ∧ w.heard v = true ∧ w.gated.sys.cpu.rax = v.setWidth 64 := by
  refine ⟨fun h => ?_, fun h => ?_, fun h => ?_⟩
  · obtain ⟨g₀, g₁, hst, hrun, htest⟩ := Run.exists_behind (Gated.step lowPlatform lowHandlers)
      (fun a m => ¬ a.Releases lowBoot.sys.active m) lowBoot.gated (.event (.call .threadExit))
      [.event (.interrupt 32 0 0), .event .yield, .stub, .event .ret]
      (fun g => decide (g.active = lowBoot.sys.active ∧ g.sys.pos g.active = .user))
      (by decide +kernel)
    obtain ⟨hact, huser⟩ := of_decide_eq_true htest
    have hoff := h lowPlatform lowBoot lowHandlers lowBoot.gated .threadExit g₀ g₁ .threadExit .refl
      trivial rfl hst hrun
    have hcore := hoff.core hact
    rw [← show g₁.active = lowBoot.gated.active from hact, huser] at hcore
    cases hcore
  · obtain ⟨g₀, g₁, hst, hrun, htest⟩ := Run.exists_behind (Gated.step lowPlatform lowHandlers)
      (fun a m => ¬ a.Releases lowBoot.sys.active m ∧
        ((a.stub a.active).isNone → ¬ a.Preempts m)) lowBoot.gated (.event (.call .threadExit))
      [.event .yield, .event (.interrupt 32 0 0)]
      (fun g => decide (g.sys.kernel.tableEntry 1 = lowBoot.sys.active ∧
        g.sys.kernel.state lowBoot.sys.active = tcbStateRunning)) (by decide +kernel)
    obtain ⟨hentry, hstate⟩ := of_decide_eq_true htest
    have hoff := h lowPlatform lowBoot lowHandlers lowBoot.gated .threadExit g₀ g₁ .threadExit .refl
      trivial rfl hst hrun
    exact (hoff.rest ⟨lowBoot.sys_sound.active, 1, by decide, hentry⟩).ne_running hstate
  · obtain ⟨w, hrun, htest⟩ := Run.exists_of_exec
      (Listener.step lowPlatform lowHandlers lowBoot.sys.active) (.start lowBoot.gated)
      [.event (.call .interruptWait), .event (.interrupt 32 0 0), .event .yield, .stub]
      (fun w => decide (w.gated.active = lowBoot.sys.active ∧
        w.gated.sys.pos lowBoot.sys.active = .ret .interruptWait ∧ w.gated.sys.cpu.rax = 0))
      (by decide +kernel)
    obtain ⟨hact, hret, hrax⟩ := of_decide_eq_true htest
    obtain ⟨v, hne, -, hv⟩ := h lowPlatform lowBoot lowHandlers _ w hrun hact hret
    refine hne (BitVec.eq_of_toNat_eq ?_)
    have hzero : v.toNat % 2 ^ 64 = 0 := by
      rw [← BitVec.toNat_setWidth, ← hv, hrax]
      rfl
    have hlt := v.isLt
    change v.toNat = 0
    omega

/-- The guard of Gated.Genuine for moments without a push. -/
def genuineTest (P : Platform) (t : Ptr) (g : Gated) : Moment → Bool
  | .event (.call .threadCreate) =>
    decide (∀ i, (g.sys.kernel.tcb (tcbAlloc P.pages g.sys.kernel).1).tap i &&& 0xC000 = 0)
  | .event (.call (.threadPushState ..)) => false
  | m => decide (g.active = t → ¬ g.Preempts m)

theorem genuine_of_test (h : genuineTest P t g m = true) : g.Genuine P t m := by
  cases m with
  | stub => trivial
  | event e =>
    refine ⟨?_, fun hc => ?_, fun th cls sp b he => ?_⟩
    · cases e with
      | interrupt v er cr2 => exact of_decide_eq_true h
      | _ => exact fun _ => id
    · cases e with
      | call c =>
        cases c with
        | threadCreate => exact hc.2 ▸ of_decide_eq_true h
        | _ => exact hc.elim
      | _ => exact hc.elim
    · subst he
      cases h

/-- The first thread pauses itself, and the timer finds the idle block active; and it comes back from
wait with the vector of the fault of a second thread. -/
theorem self_suspension_kept_first_thread :
    (∃ g : Gated, g.active = lowPlatform.idleTcb ∧ g.sys.Off lowBoot.sys.active .threadPause) ∧
    ∃ w : Listener, w.gated.sys.pos lowBoot.sys.active = .ret .interruptWait ∧
      w.gated.sys.cpu.rax = 0x80 ∧
      ∃ v, v ≠ 0 ∧ w.heard v = true ∧ w.gated.sys.cpu.rax = v.setWidth 64 := by
  constructor
  · obtain ⟨g₀, g₁, hst, hrun, htest⟩ := Run.exists_behind (Gated.step lowPlatform lowHandlers)
      (fun a m => ¬ a.Releases lowBoot.sys.active m ∧
        (a.active = lowBoot.sys.active → ¬ a.Preempts m)) lowBoot.gated
      (.event (.call (.threadPause pinionThreadIdSelf)))
      [.event .yield, .stub, .event (.interrupt 32 0 0)]
      (fun g => decide (g.active = lowPlatform.idleTcb)) (by decide +kernel)
    have hself : target lowBoot.sys.kernel pinionThreadIdSelf = lowBoot.sys.active := by
      decide +kernel
    exact ⟨g₁, of_decide_eq_true htest, ((self_suspension_kept lowBoot lowHandlers).1 lowBoot.gated
      (.threadPause pinionThreadIdSelf) g₀ g₁ .threadPause .refl hself rfl hst hrun).1⟩
  · obtain ⟨w, hrun, htest⟩ := Run.exists_of_guarded
      (Listener.step lowPlatform lowHandlers lowBoot.sys.active)
      (fun w m => genuineTest lowPlatform lowBoot.sys.active w.gated m = true)
      (.start lowBoot.gated)
      [.event (.call (.interruptSetTap 0 0x80)), .event (.call .threadCreate), .event .yield, .stub,
        .event .ret, .event (.call (.threadResume 2)), .event .yield, .stub,
        .event (.interrupt 32 0 0), .event .ret, .event (.call .interruptWait), .event .yield, .stub,
        .event (.interrupt 14 0 0), .stub]
      (fun w => decide (w.gated.active = lowBoot.sys.active ∧
        w.gated.sys.pos lowBoot.sys.active = .ret .interruptWait ∧ w.gated.sys.cpu.rax = 0x80))
      (by decide +kernel)
    obtain ⟨hact, hret, hrax⟩ := of_decide_eq_true htest
    exact ⟨w, hret, hrax, (self_suspension_kept lowBoot lowHandlers).2 (by decide +kernel) _ w
      (hrun.mono fun _ _ => genuine_of_test) hact hret⟩

end Answer
end Pinion64
