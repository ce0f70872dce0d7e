import Pinion64.GateSound

/-! The gates and the stubs on the bytes of the blocks. -/
namespace Pinion64
open Intrusive Transition

variable {P : Platform} {H : Handlers} {s s' : Sys} {e : Event} {g g' g₁ : Gated} {m : Moment}
  {st : AtStub} {p t : Ptr} {v : BitVec 32}

section Bytes

open Bytes

variable {mem : Memory 64}

theorem Gated.Sound.live (h : g.Sound P) (hi : g.active ≠ P.idleTcb) :
    g.sys.kernel.Live g.active := by
  obtain ⟨run, free, hc⟩ := h.sys.sound
  exact (hc.active.resolve_left h.sys.active).1.resolve_right hi

theorem Gated.Sound.ist (h : g.Sound P) (hk : g.sys.kernel.IstSet) (hst : g.step P H m = some g') :
    g'.sys.kernel.IstSet := by
  cases m with
  | event e =>
    obtain ⟨-, s, hs, ⟨v, -, rfl⟩ | ⟨-, rfl⟩⟩ := Gated.step_event hst
    · have hk' : (g.sys.struck e).kernel.IstSet := (g.sys.struck_kernel e).symm ▸ hk
      exact hk'
    · rw [g.strike_sys]
      exact hk.effects h.sys.sound (h.sys.step hs).2
  | stub =>
    obtain ⟨st, hs, hrun, rfl⟩ := Gated.step_stub hst
    obtain ⟨s₀, s₁, hs₀, hk₀, -, -, hst₀, hk₁, -⟩ := h.completes_kernel hs hrun
    exact hk₁ ▸ (hk₀ ▸ hk : s₀.kernel.IstSet).effects hs₀.sound (hs₀.step hst₀).2

/-- The gate, as the CPU executes it on the bytes of the blocks. -/
theorem Gated.Sound.gate_bytes (h : g.Sound P) (hk : g.sys.kernel.IstSet)
    (hi : g.active ≠ P.idleTcb) (hm : g.sys.kernel.In mem) (v : BitVec 32) (e : Event) :
    let c := (⟨mem, (g.sys.struck e).cpu⟩ : Cpu).enterGate .trap g.sys.kernel.tssIst1 (H.stub v)
      (cpuError v e.error)
    (g.gate H v e).sys.kernel.In c.mem ∧ c.regs = (g.gate H v e).sys.cpu := by
  have hlive := h.live hi
  have hp := hlive.aligned h.sys.sound
  have hist : g.sys.kernel.tssIst1 = g.active + 0x100 := hk h.sys.active
  rw [hist]
  have hblock := tcbAt_enterGate (c := ⟨mem, (g.sys.struck e).cpu⟩) (p := g.active) .trap (H.stub v)
    (cpuError v e.error) (by omega)
  have hsame := sameBut_enterGate (c := ⟨mem, (g.sys.struck e).cpu⟩) (p := g.active) .trap (H.stub v)
    (cpuError v e.error) (by omega)
  constructor
  · intro q hq
    have hq' : g.sys.kernel.Live q := (g.gate_live q).mp hq
    by_cases hqa : q = g.active
    · have hgate : (g.gate H v e).sys.kernel.tcb g.active =
          (g.sys.kernel.tcb g.active).pushFrame (g.sys.struck e).cpu (cpuError v e.error) := by
        have hb := g.gate_block (H := H) (v := v) (e := e)
        rwa [g.gate_active, g.sys.struck_kernel, g.sys.struck_active] at hb
      rw [hqa, hblock, hgate]
      exact congrArg (fun b : Tcb => b.pushFrame (g.sys.struck e).cpu (cpuError v e.error))
        (hm _ hlive)
    · rw [g.gate_block_ne hqa]
      refine (same_tcbAt (hsame.mono (by decide) le_rfl) hp (hq'.aligned h.sys.sound) hqa).trans ?_
      exact hm q hq'
  · have hsome : (cpuError v e.error).isSome = decide (v ∈ errorVectors ∨ v = 8) := by
      unfold cpuError
      split_ifs with hv
      · exact (decide_eq_true hv).symm
      · exact (decide_eq_false hv).symm
    rw [enterGate_eq .trap (H.stub v) (cpuError v e.error) (by omega)]
    simp only [hsome, decide_eq_true_eq]
    rfl

/-- The stub and save_state_full. -/
theorem Gated.Sound.stub_bytes (h : g.Sound P) (hi : g.active ≠ P.idleTcb)
    (hm : g.sys.kernel.In mem) (h8 : st.vector ≠ 8)
    (hsp : g.sys.cpu.rsp = stubStack g.active st.vector) :
    let r := ((⟨mem, g.sys.cpu⟩ : Cpu).stub st.vector).saveStateFull
    (saveState g.sys.kernel g.saved.cpu st.vector (st.error (g.sys.kernel.tcb g.active))).In r.1 ∧
      r.2 = g.active := by
  have hlive := h.live hi
  have hp := hlive.aligned h.sys.sound
  have hstack : g.sys.cpu.rsp = g.active + if st.vector ∈ errorVectors then 0xD0 else 0xD8 := by
    rwa [stubStack, if_congr (or_iff_left h8) rfl rfl] at hsp
  obtain ⟨hblock, harg, hrest⟩ := tcbAt_save (c := ⟨mem, g.sys.cpu⟩) (v := st.vector) hstack
  refine ⟨fun q hq => ?_, harg⟩
  have hq' : g.sys.kernel.Live q := hq
  by_cases hqa : q = g.active
  · rw [hqa]
    refine hblock.trans ?_
    rw [hm _ hlive]
    exact (saveState_self ..).symm
  · refine (same_tcbAt hrest hp (hq'.aligned h.sys.sound) hqa).trans ((hm q hq').trans ?_)
    exact (Kernel.updTcb_of_ne _ _ _ _ hqa).symm

/-- A trap in two steps, byte by byte: with the blocks of the threads in memory, the CPU and the stub
make of them what the gate and the stub of the system make, whatever has come in between; fault is
handed the block of the thread, and resume_state_full loads the thread that is active then. -/
theorem gates_refined (b : Boot P) (H : Handlers) (hr : Run (Gated.step P H) Free b.gated g)
    (hm : g.sys.kernel.In mem) (hi : g.active ≠ P.idleTcb) :
    (∀ e v g', e.trap = some v → g.step P H (.event e) = some g' →
      let c := (⟨mem, (g.sys.struck e).cpu⟩ : Cpu).enterGate .trap g.sys.kernel.tssIst1 (H.stub v)
        (cpuError v e.error)
      g'.sys.kernel.In c.mem ∧ c.regs = g'.sys.cpu) ∧
    ∀ st g', g.stub g.active = some st → st.vector ≠ 8 → g.step P H .stub = some g' →
      let r := ((⟨mem, g.sys.cpu⟩ : Cpu).stub st.vector).saveStateFull
      (∃ k : Kernel, k.In r.1 ∧ r.2 = g.active ∧ g'.sys.kernel = (fault P k r.2).1) ∧
        (g'.active ≠ P.idleTcb → ∀ m', g'.sys.kernel.In m' →
          g'.sys.cpu = resumeStateFull m' g'.active) := by
  have h0 : b.gated.Sound P ∧ b.gated.sys.kernel.IstSet := And.intro b.gated_sound b.istSet
  obtain ⟨h, hk⟩ : g.Sound P ∧ g.sys.kernel.IstSet :=
    hr.invariant (I := fun g => g.Sound P ∧ g.sys.kernel.IstSet) h0
      fun _ _ _ ha _ hst => ⟨ha.1.step hst, ha.1.ist ha.2 hst⟩
  constructor
  · intro e v g' hv hst
    obtain ⟨-, s, hs, ⟨w, hw, rfl⟩ | ⟨hw, -⟩⟩ := Gated.step_event hst
    · obtain rfl := Option.some.inj (hv.symm.trans hw)
      exact h.gate_bytes hk hi hm v e
    · exact absurd (hv.symm.trans hw) (by simp)
  · intro st g' hst h8 hstep
    have hstep' := hstep
    simp only [Gated.step, hst] at hstep'
    split_ifs at hstep' with hok
    obtain rfl := Option.some.inj hstep'
    have hsound := h.run hst
    obtain ⟨hin, harg⟩ := h.stub_bytes hi hm h8 hok.2
    have hb : (g.behind st).cpu = g.saved.cpu := by
      rcases g.behind_cases st with hb | ⟨-, x, -, hb⟩
      · rw [hb]
      · rw [hb]
        rfl
    refine ⟨⟨_, hin, harg, ?_⟩, fun hi' m' hm' => ?_⟩
    · rw [g.run_sys, enter_kernel, g.behind_kernel, hb, harg]
      rfl
    · rw [resumeStateFull_eq, hm' _ (hsound.live hi')]
      have hcpu := enter_cpu (s := g.behind st) st.vector (st.error (g.sys.kernel.tcb g.active))
        (g.behind_kernel st ▸ h.sys.sound) (by
          rw [Sys.active, g.behind_kernel]
          exact h.sys.active) (by rw [← g.run_sys]; exact hi')
      rw [← g.run_sys] at hcpu
      exact hcpu

/-- The first thread yields, in two steps. -/
theorem gates_refined_first_thread : ∃ mem g', lowBoot.gated.sys.kernel.In mem ∧
    lowBoot.gated.step lowPlatform lowHandlers (.event .yield) = some g' ∧
    ((⟨mem, (lowBoot.sys.struck .yield).cpu⟩ : Cpu).enterGate .trap lowBoot.sys.kernel.tssIst1
      (lowHandlers.stub 0x100) none).regs = g'.sys.cpu := by
  obtain ⟨mem, hm⟩ := lowBoot.sys_sound.sound.exists_in
  obtain ⟨g', hst⟩ := Option.isSome_iff_exists.mp
    (by decide +kernel : (lowBoot.gated.step lowPlatform lowHandlers (.event .yield)).isSome = true)
  exact ⟨mem, g', hm, hst, ((gates_refined lowBoot lowHandlers .refl hm (by decide +kernel)).1 .yield
    0x100 g' rfl hst).2⟩

end Bytes

end Pinion64
