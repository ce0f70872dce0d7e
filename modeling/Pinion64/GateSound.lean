import Pinion64.Gates

/-! The invariant of the system with gates and stubs. A stub completes the event whose gate its thread
has come through, as far as the kernel is concerned. -/
namespace Pinion64
open Intrusive Transition

variable {P : Platform} {H : Handlers} {s s' : Sys} {e : Event} {g g' g₁ : Gated} {m : Moment}
  {st : AtStub} {p t : Ptr} {v : BitVec 32}

section Sound

/-- The vectors of the trap gates. -/
def TrapVector (v : BitVec 32) : Prop := v ∈ faultVectors ∨ v = 0x100

/-- The stub, or the one to which the frame leads, is that of the yield trap. -/
def AtStub.Yields (st : AtStub) : Prop := st.vector = 0x100 ∨ st.struck = some 0x100

/-- Only the active thread stands at a stub with its frame in its block. Before it is over, the trap of
an entry finds the code of the entry in rdi, unless its thread has been away and runs again. -/
structure Gated.Sound (P : Platform) (g : Gated) : Prop where
  sys : SysSound P g.sys
  vector : ∀ t st, g.stub t = some st → TrapVector st.vector ∧ ∀ u ∈ st.struck, TrapVector u
  own : ∀ t st, g.stub t = some st → st.struck = none → t = g.active
  idle : ∀ st, g.stub P.idleTcb = some st → ¬ st.Yields
  code : ∀ st x, g.stub g.active = some st → st.Yields →
    st.struck = none ∨ g.sys.kernel.state g.active ≠ tcbStateRunning →
    g.sys.pos g.active = .tail x → g.sys.cpu.rdi = x.yieldCode
  back : g.stub g.active = some ⟨0x100, none⟩ → ∀ x, g.sys.pos g.active ≠ .ret x

theorem TrapVector.ne_irq (h : TrapVector v) : ¬ (32 ≤ v ∧ v < 255) := by
  rintro ⟨hlo, hhi⟩
  rcases h with h | rfl
  · simp only [faultVectors, List.mem_cons, List.not_mem_nil, or_false] at h
    bv_omega
  · exact absurd hhi (by decide)

theorem Event.trap_installed (h : e.trap = some v) (hst : s.step P e = some s') : TrapVector v := by
  cases e with
  | interrupt w er cr2 =>
    obtain ⟨hlt, hw⟩ : w < 32 ∧ some w = some v := by simpa [Event.trap] using h
    obtain rfl := Option.some.inj hw
    exact Or.inl ((Sys.interrupt_cases hst).1.resolve_right fun hc => by bv_omega)
  | yield => exact Or.inr (Option.some.inj h).symm
  | _ => cases h

/-- How a trap ends: where it began, with a thread that has been dispatched, or in the idle loop. -/
theorem enter_end (iv : BitVec 32) (error : Word) (hs : Sound P s.kernel) (ha : s.active ≠ 0) :
    (s.enter P iv error).active = s.active ∧
      (s.enter P iv error).kernel.state s.active = s.kernel.state s.active ∧
      (s.enter P iv error).cpu = s.cpu ∧ (s.enter P iv error).pos = s.pos ∨
    (s.enter P iv error).kernel.state (s.enter P iv error).active = tcbStateRunning ∨
    (s.enter P iv error).active = P.idleTcb := by
  have hs₀ : Pinion64.Sound P (saveState s.kernel s.cpu iv error) := hs.effects (A := fun _ => True)
    (.single (e := .regs s.kernel.activeTcb s.cpu iv 0 error) trivial trivial rfl)
  have hstate : (saveState s.kernel s.cpu iv error).state s.kernel.activeTcb =
      s.kernel.state s.kernel.activeTcb := saveState_state ..
  have hregs : ((saveState s.kernel s.cpu iv error).tcb s.kernel.activeTcb).regs = s.cpu :=
    saveState_regs ..
  have hactive : (saveState s.kernel s.cpu iv error).activeTcb = s.kernel.activeTcb := rfl
  obtain ⟨-, hend⟩ := fault_effects hs₀ ha
  simp only [Sys.enter, Sys.active, hactive] at hend ⊢
  generalize fault P (saveState s.kernel s.cpu iv error) s.kernel.activeTcb = r at hend ⊢
  obtain ⟨k', f⟩ := r
  cases f with
  | resume =>
    rcases hend.resume rfl with ⟨rfl, -⟩ | ⟨-, hrun⟩
    · exact Or.inl ⟨rfl, hstate, hregs, rfl⟩
    · exact Or.inr (Or.inl hrun)
  | idle => exact Or.inr (Or.inr (hend.idle rfl))
  | hang =>
    obtain ⟨rfl, -⟩ := hend.hang rfl
    exact Or.inl ⟨rfl, hstate, rfl, rfl⟩

section Stubs

theorem Gated.gate_stub_ne (g : Gated) (h : t ≠ g.active) : (g.gate H v e).stub t = g.stub t :=
  Function.update_of_ne h ..

theorem Gated.setStub_some {x : Option AtStub} (h : (g.setStub p x).stub t = some st) :
    t = p ∧ x = some st ∨ t ≠ p ∧ g.stub t = some st := by
  change Function.update g.stub p x t = some st at h
  by_cases ht : t = p
  · rw [ht, Function.update_self] at h
    exact Or.inl ⟨ht, h⟩
  · rw [Function.update_of_ne ht] at h
    exact Or.inr ⟨ht, h⟩

/-- Who is taken away from its stub stands at none. -/
theorem Gated.setStub_none (h : (g.setStub p none).stub t = some st) : g.stub t = some st := by
  rcases Gated.setStub_some h with ⟨-, hn⟩ | ⟨-, h⟩
  · cases hn
  · exact h

/-- An interrupt before the cli makes the frame of its thread lead to the stub. -/
theorem Gated.strike_stub (h : (g.strike P s e).stub t = some st) :
    (t = g.active → e.comesIn = false) ∧ g.stub t = some st ∨
      t = g.active ∧ e.comesIn = true ∧ ∃ st₀, g.stub t = some st₀ ∧ st = .lost st₀.vector := by
  cases e with
  | interrupt w er cr2 =>
    have hset : (({ g with sys := s } : Gated).setStub g.active
        ((g.stub g.active).map fun st => .lost st.vector)).stub t = some st := by
      simp only [strike] at h
      split_ifs at h
      · exact setStub_none h
      · exact h
    rcases setStub_some hset with ⟨ht, hx⟩ | ⟨ht, hx⟩
    · obtain ⟨st₀, h₀, rfl⟩ := Option.map_eq_some_iff.mp hx
      exact Or.inr ⟨ht, rfl, st₀, ht ▸ h₀, rfl⟩
    · exact Or.inl ⟨fun hc => absurd hc ht, hx⟩
  | call c =>
    refine Or.inl ⟨fun _ => rfl, ?_⟩
    simp only [strike] at h
    cases ho : g.sys.outside P c with
    | some p =>
      rw [ho] at h
      exact setStub_none h
    | none =>
      rw [ho] at h
      exact h
  | _ => exact Or.inl ⟨fun _ => rfl, h⟩

theorem Gated.run_stub {st₀ : AtStub} (h : (g.run P st₀).stub t = some st) :
    t ≠ g.active ∧ g.stub t = some st ∨ t = g.active ∧ ∃ u, st₀.struck = some u ∧ st = .lost u := by
  have hset : (({ g with sys := (g.run P st₀).sys } : Gated).setStub g.active
      (st₀.struck.map .lost)).stub t = some st := by
    rw [run_sys]
    simp only [run] at h
    split_ifs at h
    · exact setStub_none h
    · exact h
  rcases setStub_some hset with ⟨ht, hx⟩ | ⟨ht, hx⟩
  · obtain ⟨u, hu, rfl⟩ := Option.map_eq_some_iff.mp hx
    exact Or.inr ⟨ht, u, hu, rfl⟩
  · exact Or.inl ⟨ht, hx⟩

end Stubs

section Frame

theorem Sys.framed_effect (s : Sys) (error : Option Word) :
    ∃ r er, Effect.apply P s.kernel (.regs s.active r (s.kernel.tcb s.active).ivect
      (s.kernel.tcb s.active).saved er) = some (s.framed error).kernel :=
  ⟨_, _, rfl⟩

theorem Sys.framed_state (s : Sys) (error : Option Word) (t : Ptr) :
    (s.framed error).kernel.state t = s.kernel.state t :=
  s.kernel.updTcb_proj s.active t (fun b => b.pushFrame s.cpu error) Tcb.state fun _ => rfl

/-- The gate takes no part in what the kernel does. -/
theorem SysSound.framed (h : SysSound P s) (error : Option Word) (r : Regs) :
    SysSound P { s.framed error with cpu := r } := by
  obtain ⟨r', er, happ⟩ := s.framed_effect (P := P) error
  have heff : Effects P (fun _ => True) s.kernel (s.framed error).kernel :=
    .single (e := .regs ..) trivial trivial happ
  refine ⟨h.sound.effects heff, h.vectors.effects h.sound heff, h.active, h.idle, fun hi hx => ?_⟩
  exact (s.framed_state error s.active).trans (h.runs hi hx)

theorem SysSound.struck (h : SysSound P s) (e : Event) : SysSound P (s.struck e) := by
  cases e with
  | interrupt w er cr2 =>
    rw [Sys.struck]
    split_ifs
    · exact ⟨h.sound, h.vectors, h.active, h.idle, h.runs⟩
    · exact h
  | yield => exact ⟨h.sound, h.vectors, h.active, h.idle, h.runs⟩
  | _ => exact h

end Frame

/-- How an event ends that is no trap: with the same thread, with one that has been dispatched, or in
the idle loop. -/
theorem Sys.step_end (hs : SysSound P s) (hv : e.trap = none) (hst : s.step P e = some s') :
    s'.active = s.active ∧ (e.comesIn = true → s'.kernel.state s.active = s.kernel.state s.active ∧
      s'.cpu = s.cpu ∧ s'.pos = s.pos) ∨
    s'.kernel.state s'.active = tcbStateRunning ∨ s'.active = P.idleTcb := by
  cases e with
  | run regs =>
    obtain ⟨-, rfl⟩ := Sys.run_cases hst
    exact Or.inl ⟨rfl, fun hc => by cases hc⟩
  | call c =>
    obtain ⟨-, -, hact, -⟩ := call_shape hs hst
    exact Or.inl ⟨hact, fun hc => by cases hc⟩
  | ret =>
    obtain ⟨x, -, rfl⟩ := Sys.ret_cases hst
    exact Or.inl ⟨rfl, fun hc => by cases hc⟩
  | yield => cases hv
  | interrupt w er cr2 =>
    obtain ⟨-, x, er', rfl⟩ := Sys.interrupt_cases hst
    exact (enter_end (s := { s with cr2 := x }) w er' hs.sound hs.active).imp_left fun hsame =>
      ⟨hsame.1, fun _ => hsame.2⟩

/-- The thread in whose name the stub runs stands where it stood, or behind the trap of its entry. -/
theorem Gated.behind_cases (g : Gated) (st : AtStub) : g.behind st = g.saved ∨
    st = ⟨0x100, none⟩ ∧ ∃ x, g.sys.pos g.active = .tail x ∧
      g.behind st = g.saved.setPos g.active (.ret x) := by
  obtain ⟨w, u⟩ := st
  cases u with
  | some u => exact Or.inl rfl
  | none =>
    cases hx : g.sys.pos g.active with
    | tail x =>
      simp only [behind, hx]
      split_ifs with hw
      · exact Or.inr ⟨by rw [hw], x, rfl, rfl⟩
      · exact Or.inl rfl
    | _ =>
      left
      simp only [behind, hx]

theorem Gated.behind_kernel (g : Gated) (st : AtStub) : (g.behind st).kernel = g.sys.kernel := by
  rcases g.behind_cases st with h | ⟨-, x, -, h⟩ <;>
  · rw [h]
    rfl

theorem Gated.gate_state (g : Gated) (t : Ptr) :
    (g.gate H v e).sys.kernel.state t = g.sys.kernel.state t :=
  ((g.sys.struck e).framed_state (cpuError v e.error) t).trans
    (congrFun (congrArg Kernel.state (g.sys.struck_kernel e)) t)

theorem Gated.gate_live (g : Gated) (t : Ptr) :
    (g.gate H v e).sys.kernel.Live t ↔ g.sys.kernel.Live t := by
  have hk : (g.sys.struck e).kernel = g.sys.kernel := g.sys.struck_kernel e
  change (g.sys.struck e).kernel.Live t ↔ _
  rw [hk]

theorem Gated.gate_block_ne (g : Gated) (h : t ≠ g.active) :
    (g.gate H v e).sys.kernel.tcb t = g.sys.kernel.tcb t := by
  have hne : t ≠ (g.sys.struck e).active := fun hc => h (hc.trans (g.sys.struck_active e))
  exact ((g.sys.struck e).kernel.updTcb_of_ne _ t (fun b => b.pushFrame (g.sys.struck e).cpu
    (cpuError v e.error)) hne).trans (by rw [g.sys.struck_kernel])

theorem Gated.gate_pos (g : Gated) : (g.gate H v e).sys.pos = g.sys.pos := g.sys.struck_pos e

section Step

variable (h : g.Sound P)
include h

theorem Gated.Sound.gate (hv : e.trap = some v) (hst : g.sys.step P e = some s)
    (hin : (g.stub g.active).isSome → e.comesIn = true) : (g.gate H v e).Sound P := by
  have hactive : (g.gate H v e).active = g.active := g.gate_active
  have hpos : (g.gate H v e).sys.pos = g.sys.pos := g.sys.struck_pos e
  have hstate : ∀ t, (g.gate H v e).sys.kernel.state t = g.sys.kernel.state t := fun t =>
    ((g.sys.struck e).framed_state (cpuError v e.error) t).trans
      (congrFun (congrArg Kernel.state (g.sys.struck_kernel e)) t)
  have hvec : TrapVector v := Event.trap_installed hv hst
  -- a yield trap is no interrupt, and comes to a thread that stands at no stub
  have hyield : v = 0x100 → e = .yield ∧ g.stub g.active = none := by
    rintro rfl
    cases e with
    | interrupt w er cr2 =>
      obtain ⟨hlt, hw⟩ : w < 32 ∧ some w = some 0x100 := by simpa [Event.trap] using hv
      obtain rfl := Option.some.inj hw
      exact absurd hlt (by decide)
    | yield =>
      refine ⟨rfl, ?_⟩
      by_contra hc
      exact absurd (hin (Option.isSome_iff_ne_none.mpr hc)) (by decide)
    | _ => cases hv
  have hnew : (g.gate H v e).stub g.active = some ⟨v, (g.stub g.active).map AtStub.vector⟩ :=
    g.gate_stub
  have hstub : ∀ t st, (g.gate H v e).stub t = some st →
      t = g.active ∧ st = ⟨v, (g.stub g.active).map AtStub.vector⟩ ∨
        t ≠ g.active ∧ g.stub t = some st := by
    intro t st ht
    rcases Gated.setStub_some ht with ⟨rfl, hx⟩ | ⟨hne, hx⟩
    · exact Or.inl ⟨rfl, (Option.some.inj hx).symm⟩
    · exact Or.inr ⟨hne, hx⟩
  have hyields : ∀ st : AtStub, st = ⟨v, (g.stub g.active).map AtStub.vector⟩ → st.Yields →
      e = .yield ∧ g.stub g.active = none ∨
        ∃ st₀, g.stub g.active = some st₀ ∧ st₀.Yields ∧ st.struck = some 0x100 ∧
          e.comesIn = true := by
    rintro st rfl (hy | hy)
    · exact Or.inl (hyield hy)
    · obtain ⟨st₀, h₀, hv₀⟩ := Option.map_eq_some_iff.mp hy
      exact Or.inr ⟨st₀, h₀, Or.inl hv₀, hy, hin (by rw [h₀]; rfl)⟩
  constructor
  · exact (h.sys.struck e).framed _ _
  · intro t st ht
    rcases hstub t st ht with ⟨rfl, rfl⟩ | ⟨-, hx⟩
    · refine ⟨hvec, fun u hu => ?_⟩
      obtain ⟨st₀, h₀, rfl⟩ := Option.map_eq_some_iff.mp hu
      exact (h.vector _ _ h₀).1
    · exact h.vector t st hx
  · intro t st ht hs
    rw [hactive]
    rcases hstub t st ht with ⟨rfl, -⟩ | ⟨-, hx⟩
    · rfl
    · exact h.own t st hx hs
  · intro st ht hy
    rcases hstub _ st ht with ⟨hi, hst'⟩ | ⟨-, hx⟩
    · rcases hyields st hst' hy with ⟨rfl, -⟩ | ⟨st₀, h₀, hy₀, -⟩
      · rcases Sys.yield_cases hst with ⟨-, hne, -⟩ | ⟨x, hx, -⟩
        · exact hne hi.symm
        · have huser := h.sys.idle
          rw [hi, Gated.active, hx] at huser
          cases huser
      · exact h.idle st₀ (hi ▸ h₀) hy₀
    · exact h.idle st hx hy
  · intro st x ht hy hs hx
    rw [hactive] at ht hs hx
    rw [hpos] at hx
    obtain rfl := Option.some.inj (hnew.symm.trans ht)
    rcases hyields _ rfl hy with ⟨rfl, -⟩ | ⟨st₀, h₀, hy₀, hs₀, hcome⟩
    · have hregs : (g.gate H v .yield).sys.cpu.rdi = g.sys.yieldRegs.rdi := rfl
      rw [hregs, Sys.yieldRegs, show g.sys.pos g.sys.active = .tail x from hx]
    · have hregs : (g.gate H v e).sys.cpu.rdi = g.sys.cpu.rdi := by
        cases e with
        | interrupt w er cr2 =>
          change (g.sys.struck (.interrupt w er cr2)).cpu.rdi = _
          rw [Sys.struck]
          split_ifs <;> rfl
        | _ => cases hcome
      rw [hregs]
      refine h.code st₀ x h₀ hy₀ (Or.inr ?_) hx
      rw [← hstate]
      exact hs.resolve_left (by rw [hs₀]; simp)
  · intro ht x hx
    rw [hactive] at ht hx
    rw [hpos] at hx
    obtain ⟨rfl, -⟩ : v = 0x100 ∧ _ := AtStub.mk.inj (Option.some.inj (hnew.symm.trans ht))
    obtain ⟨rfl, -⟩ := hyield rfl
    rcases Sys.yield_cases hst with ⟨hu, -, -⟩ | ⟨y, hy, -⟩
    · exact absurd (hx.symm.trans hu) (by simp)
    · exact absurd (hx.symm.trans hy) (by simp)

theorem Gated.Sound.strike (hv : e.trap = none) (hst : g.sys.step P e = some s)
    (hin : (g.stub g.active).isSome → e.comesIn = true) : (g.strike P s e).Sound P := by
  have hsys : (g.strike P s e).sys = s := g.strike_sys s e
  -- the active thread stands at a stub only if an interrupt comes in, which strikes it there
  have hstub : ∀ t st, (g.strike P s e).stub t = some st → t ≠ g.active ∧ g.stub t = some st ∨
      t = g.active ∧ e.comesIn = true ∧ ∃ st₀, g.stub t = some st₀ ∧ st = .lost st₀.vector := by
    intro t st ht
    refine (Gated.strike_stub ht).imp_left fun ⟨hno, hx⟩ => ⟨fun hact => ?_, hx⟩
    have hcome := hin (by rw [← hact, hx]; rfl)
    rw [hno hact] at hcome
    cases hcome
  have hown : ∀ t st, (g.strike P s e).stub t = some st → st.struck ≠ none := by
    intro t st ht hs
    rcases hstub t st ht with ⟨hne, hx⟩ | ⟨-, -, st₀, -, rfl⟩
    · exact hne (h.own t st hx hs)
    · cases hs
  constructor
  · rw [hsys]
    exact (h.sys.step hst).1
  · intro t st ht
    rcases hstub t st ht with ⟨-, hx⟩ | ⟨-, -, st₀, h₀, rfl⟩
    · exact h.vector t st hx
    · have hvec := (h.vector t st₀ h₀).1
      exact ⟨hvec, fun u hu => Option.some.inj hu ▸ hvec⟩
  · exact fun t st ht hs => absurd hs (hown t st ht)
  · intro st ht hy
    rcases hstub _ st ht with ⟨-, hx⟩ | ⟨-, -, st₀, h₀, rfl⟩
    · exact h.idle st hx hy
    · exact h.idle st₀ h₀ (Or.inl (hy.elim id Option.some.inj))
  · intro st x ht hy hs hx
    have hrun := hs.resolve_left (hown _ st ht)
    rw [Gated.active, hsys] at ht hrun hx
    rcases Sys.step_end h.sys hv hst with ⟨hact, hsame⟩ | hr | hi
    · rw [hact] at ht hrun hx
      obtain ⟨hne, -⟩ | ⟨-, hcome, st₀, h₀, rfl⟩ := hstub _ st ht
      · exact absurd rfl hne
      · obtain ⟨hstate, hcpu, hpos⟩ := hsame hcome
        rw [hsys, hcpu]
        refine h.code st₀ x h₀ (Or.inl (hy.elim id Option.some.inj)) (Or.inr ?_) (hpos ▸ hx)
        exact fun hc => hrun (hstate.trans hc)
    · exact absurd hr hrun
    · rw [hi, (h.sys.step hst).1.idle] at hx
      cases hx
  · exact fun ht => absurd rfl (hown _ _ ht)

theorem Gated.Sound.run (hst : g.stub g.active = some st) : (g.run P st).Sound P := by
  have hk := g.behind_kernel st
  have hsys : SysSound P (g.run P st).sys := by
    rw [g.run_sys]
    have hact : (g.behind st).active = g.active := congrArg Kernel.activeTcb hk
    refine (enter_sound (hk ▸ h.sys.sound) (hk ▸ h.sys.vectors) (hact ▸ h.sys.active) ?_ ?_).1
    · rcases g.behind_cases st with hb | ⟨-, x, hx, hb⟩
      · rw [hb]
        exact h.sys.idle
      · have hne : P.idleTcb ≠ g.active := by
          rintro hc
          rw [← hc, h.sys.idle] at hx
          cases hx
        rw [hb]
        exact (Function.update_of_ne hne ..).trans h.sys.idle
    · intro hv
      obtain hb | ⟨rfl, -⟩ := g.behind_cases st
      · rw [hb]
        exact h.sys.runs
      · exact absurd rfl hv
  have hown : ∀ t st', (g.run P st).stub t = some st' → st'.struck ≠ none := by
    intro t st' ht hs
    rcases Gated.run_stub ht with ⟨hne, hx⟩ | ⟨-, u, -, rfl⟩
    · exact hne (h.own t st' hx hs)
    · cases hs
  constructor
  · exact hsys
  · intro t st' ht
    rcases Gated.run_stub ht with ⟨-, hx⟩ | ⟨-, u, hu, rfl⟩
    · exact h.vector t st' hx
    · have hvec := (h.vector _ st hst).2 u hu
      exact ⟨hvec, fun w hw => Option.some.inj hw ▸ hvec⟩
  · exact fun t st' ht hs => absurd hs (hown t st' ht)
  · intro st' ht hy
    rcases Gated.run_stub ht with ⟨-, hx⟩ | ⟨hi, u, hu, rfl⟩
    · exact h.idle st' hx hy
    · refine h.idle st (hi ▸ hst) (Or.inr (hu.trans (congrArg some ?_)))
      exact hy.elim id Option.some.inj
  · intro st' x ht hy hs hx
    have hrun := hs.resolve_left (hown _ st' ht)
    have hend := enter_end (s := g.behind st) st.vector (st.error (g.sys.kernel.tcb g.active))
      (hk ▸ h.sys.sound) (by rw [Sys.active, hk]; exact h.sys.active)
    rw [← g.run_sys] at hend
    rcases hend with ⟨hact, hstate, hcpu, hpos⟩ | hr | hi
    · have hact' : (g.run P st).active = g.active := hact.trans (congrArg Kernel.activeTcb hk)
      rw [hact'] at ht hrun hx
      obtain ⟨hne, -⟩ | ⟨-, u, hu, rfl⟩ := Gated.run_stub ht
      · exact absurd rfl hne
      · have hu100 : u = 0x100 := hy.elim id Option.some.inj
        obtain hb | ⟨rfl, -⟩ := g.behind_cases st
        · rw [hb] at hcpu hpos hstate
          rw [hcpu]
          refine h.code st x hst (Or.inr (hu.trans (congrArg some hu100))) (Or.inr fun hc => ?_)
            (hpos ▸ hx)
          exact hrun (hstate.trans hc)
        · cases hu
    · exact absurd hr hrun
    · rw [show (g.run P st).active = P.idleTcb from hi, hsys.idle] at hx
      cases hx
  · exact fun ht => absurd rfl (hown _ _ ht)

end Step

theorem Gated.Sound.step (h : g.Sound P) (hst : g.step P H m = some g') : g'.Sound P := by
  cases m with
  | event e =>
    obtain ⟨hin, s, hs, ⟨v, hv, rfl⟩ | ⟨hv, rfl⟩⟩ := Gated.step_event hst
    · exact h.gate hv hs hin
    · exact h.strike hv hs hin
  | stub =>
    obtain ⟨st, hs, -, rfl⟩ := Gated.step_stub hst
    exact h.run hs

section Stub

/-- The event that the stub of the active thread completes. -/
def Gated.trapEvent (g : Gated) (st : AtStub) : Event :=
  st.event (g.sys.kernel.tcb g.active).error g.sys.cr2

theorem Gated.event_stub (hst : g.stub g.active = some st) : g.event .stub = some (g.trapEvent st) := by
  rw [event, hst]
  rfl

theorem Gated.event_plain (hv : e.trap = none) : g.event (.event e) = some e := by
  rw [event, hv]
  rfl

theorem SysSound.cpu (h : SysSound P s) (r : Regs) : SysSound P { s with cpu := r } :=
  ⟨h.sound, h.vectors, h.active, h.idle, h.runs⟩

theorem Regs.rdi_self {r : Regs} {w : Word} (h : r.rdi = w) : { r with rdi := w } = r := by
  rw [← h]

/-- The stub completes the event of the system. Only a yield trap that has been struck leaves its
thread where it stood. -/
theorem Gated.Sound.completes (h : g.Sound P) (hst : g.stub g.active = some st)
    (hrun : g.sys.halted = false) (hs : st.struck = none ∨ st.vector ≠ 0x100) :
    g.saved.step P (g.trapEvent st) = some (g.run P st).sys := by
  have hhalt : ¬ g.saved.halted = true := by
    change ¬ g.sys.halted = true
    rw [hrun]
    decide
  rw [g.run_sys, Gated.trapEvent, AtStub.event]
  by_cases hv : st.vector = 0x100
  · have hnone := hs.resolve_right fun hc => hc hv
    obtain rfl : st = ⟨0x100, none⟩ := by
      obtain ⟨w, u⟩ := st
      rw [show w = 0x100 from hv, show u = none from hnone]
    have hi : g.active ≠ P.idleTcb := fun hc => h.idle _ (hc ▸ hst) (Or.inl rfl)
    rw [if_pos rfl]
    cases hx : g.sys.pos g.active with
    | user =>
      have hp : g.saved.pos g.saved.active = .user := hx
      have hb : g.behind ⟨0x100, none⟩ = g.saved := by simp only [Gated.behind, hx]
      simp only [Sys.step, if_neg hhalt, hp, hb]
      exact if_pos hi
    | tail x =>
      have hp : g.saved.pos g.saved.active = .tail x := hx
      have hb : g.behind ⟨0x100, none⟩ = g.saved.setPos g.active (.ret x) := by
        simp only [Gated.behind, hx, if_pos]
      have hcode : g.saved.cpu.rdi = x.yieldCode := h.code _ x hst (Or.inl rfl) (Or.inl rfl) hx
      simp only [Sys.step, if_neg hhalt, hp, hb, Regs.rdi_self hcode]
      rfl
    | ret x => exact absurd hx (h.back hst x)
  · have hin : Installed st.vector := Or.inl ((h.vector _ _ hst).1.resolve_right hv)
    have hb : g.behind st = g.saved := (g.behind_cases st).resolve_right fun hc => by
      obtain ⟨rfl, -⟩ := hc
      exact hv rfl
    have hcr2 : (if st.vector = 14 then { g.saved with cr2 := g.sys.cr2 } else g.saved) = g.saved :=
      ite_self _
    rw [if_neg hv]
    simp only [Sys.step, if_neg hhalt, if_pos hin, hb, hcr2]
    rfl

theorem enter_setPos (s : Sys) (p : Ptr) (x : Pos) (iv : BitVec 32) (er : Word) :
    ((s.setPos p x).enter P iv er).kernel = (s.enter P iv er).kernel ∧
      ((s.setPos p x).enter P iv er).cpu = (s.enter P iv er).cpu := by
  have hsave : saveState (s.setPos p x).kernel (s.setPos p x).cpu iv er =
      saveState s.kernel s.cpu iv er := rfl
  simp only [Sys.enter, hsave]
  rcases fault P (saveState s.kernel s.cpu iv er) (saveState s.kernel s.cpu iv er).activeTcb with
    ⟨k', _ | _ | _⟩ <;> exact ⟨rfl, rfl⟩

/-- To the kernel, the stub completes the event of the system in any case. -/
theorem Gated.Sound.completes_kernel (h : g.Sound P) (hst : g.stub g.active = some st)
    (hrun : g.sys.halted = false) : ∃ s₀ s₁, SysSound P s₀ ∧ s₀.kernel = g.sys.kernel ∧
      s₀.cpu = g.saved.cpu ∧ (∀ t, s₀.pos t = g.sys.pos t ∨ t = g.active ∧ s₀.pos t = .user ∧
        g.sys.kernel.state g.active = tcbStateRunning) ∧
      s₀.step P (g.trapEvent st) = some s₁ ∧ s₁.kernel = (g.run P st).sys.kernel ∧
      s₁.cpu = (g.run P st).sys.cpu := by
  have hsaved : SysSound P g.saved := h.sys.cpu _
  by_cases hs : st.struck = none ∨ st.vector ≠ 0x100
  · exact ⟨g.saved, _, hsaved, rfl, rfl, fun _ => Or.inl rfl, h.completes hst hrun hs, rfl, rfl⟩
  obtain ⟨hne, hv⟩ := not_or.mp hs
  have hv : st.vector = 0x100 := not_not.mp hv
  have hb : g.behind st = g.saved := (g.behind_cases st).resolve_right fun hc => by
    obtain ⟨rfl, -⟩ := hc
    exact hne rfl
  have hi : g.active ≠ P.idleTcb := fun hc => h.idle _ (hc ▸ hst) (Or.inl hv)
  have hhalt : ¬ g.saved.halted = true := by
    change ¬ g.sys.halted = true
    rw [hrun]
    decide
  have herror : st.error (g.sys.kernel.tcb g.active) = 0 := by
    rw [AtStub.error, hv, if_neg (by decide)]
  rw [g.run_sys, Gated.trapEvent, AtStub.event, if_pos hv, hb, hv, herror]
  by_cases hr : g.sys.kernel.state g.active = tcbStateRunning
  · -- a thread that runs stands there like one in user code
    let s₀ := g.saved.setPos g.active .user
    have hp : s₀.pos s₀.active = .user := Function.update_self ..
    have hs₀ : SysSound P s₀ := by
      refine ⟨h.sys.sound, h.sys.vectors, h.sys.active, ?_, fun _ _ => hr⟩
      exact (Function.update_of_ne hi.symm ..).trans h.sys.idle
    obtain ⟨hk, hc⟩ := enter_setPos (P := P) g.saved g.active .user 0x100 0
    refine ⟨s₀, s₀.enter P 0x100 0, hs₀, rfl, rfl, fun t => ?_, ?_, hk, hc⟩
    · by_cases ht : t = g.active
      · exact Or.inr ⟨ht, ht ▸ hp, hr⟩
      · exact Or.inl (Function.update_of_ne ht ..)
    · have hhalt₀ : ¬ s₀.halted = true := hhalt
      simp only [Sys.step, if_neg hhalt₀, hp]
      exact if_pos hi
  · -- any other one has not been away since its entry
    have htail : ∃ x, g.sys.pos g.active = .tail x := by
      by_contra hc
      exact hr (h.sys.runs hi (not_exists.mp hc))
    obtain ⟨x, hx⟩ := htail
    have hp : g.saved.pos g.saved.active = .tail x := hx
    have hcode : g.saved.cpu.rdi = x.yieldCode := h.code _ x hst (Or.inl hv) (Or.inr hr) hx
    obtain ⟨hk, hc⟩ := enter_setPos (P := P) g.saved g.active (.ret x) 0x100 0
    refine ⟨g.saved, (g.saved.setPos g.active (.ret x)).enter P 0x100 0, hsaved, rfl, rfl,
      fun _ => Or.inl rfl, ?_, hk, hc⟩
    simp only [Sys.step, if_neg hhalt, hp, Regs.rdi_self hcode]
    rfl

end Stub

theorem Boot.gated_sound (b : Boot P) : b.gated.Sound P := by
  have hnone : ∀ t st, b.gated.stub t ≠ some st := by
    intro t st h
    cases h
  exact ⟨b.sys_sound, fun t st h => absurd h (hnone t st), fun t st h => absurd h (hnone t st),
    fun st h => absurd h (hnone _ st), fun st _ h => absurd h (hnone _ st),
    fun h => absurd h (hnone _ _)⟩

end Sound

end Pinion64
