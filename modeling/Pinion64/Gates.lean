import Pinion64.ContextSwitch
import Pinion64.Idt

/-! The running system with the way through a trap gate in two steps. The gate leaves interrupts on,
and its stub begins with cli: what comes in between the two takes the place of the frame that the gate
has pushed. -/
namespace Pinion64
open Intrusive Transition

-- For the tests on vectors, as in TrapFrame.
local instance lawfulStub : LawfulBEq (BitVec 32) := lawfulVector

section Definitions

/-- A thread stands before the cli of a stub. The frame in its block leads back to where it was
trapped, or to the stub that an interrupt has struck. -/
structure AtStub where
  vector : BitVec 32
  struck : Option (BitVec 32)

/-- An interrupt has come in before the cli, and its frame leads to the stub. -/
def AtStub.lost (v : BitVec 32) : AtStub := ⟨v, some v⟩

structure Gated where
  sys : Sys
  stub : Ptr → Option AtStub

inductive Moment
  /-- An event of the system; of a trap, no more than its gate. -/
  | event (e : Event)
  /-- The active thread executes the stub before which it stands. -/
  | stub

/-- The vector of an event that comes through a trap gate. -/
def Event.trap : Event → Option (BitVec 32)
  | .interrupt v _ _ => if v < 32 then some v else none
  | .yield => some 0x100
  | _ => none

/-- The event is none of the active thread's own. -/
def Event.comesIn : Event → Bool
  | .interrupt .. => true
  | _ => false

/-- The stub to which a trap gate leads. -/
def Handlers.stub (H : Handlers) (v : BitVec 32) : Word :=
  if v = 0x100 then H.yield else H.fault v

/-- The stack with which the stub begins: the frame lies above it, and maybe an error code. -/
def stubStack (p : Ptr) (v : BitVec 32) : Word :=
  p + if v ∈ errorVectors ∨ v = 8 then 0xD0 else 0xD8

def Regs.atStub (r : Regs) (entry rsp : Word) : Regs :=
  { r with
    rip := entry
    cs := 0x08
    rflags := r.rflags &&& ~~~Gate.trap.clears
    rsp := rsp }

/-- The error code that the stub leaves in the block. -/
def AtStub.error (st : AtStub) (t : Tcb) : Word := if st.vector ∈ errorVectors then t.error else 0

/-- The event that the stub completes. -/
def AtStub.event (st : AtStub) (error cr2 : Word) : Event :=
  if st.vector = 0x100 then .yield else .interrupt st.vector error cr2

/-- The trap ends in the idle loop, which is entered afresh. -/
def Sys.idles (P : Platform) (s : Sys) (iv : BitVec 32) (error : Word) : Bool :=
  match fault P (saveState s.kernel s.cpu iv error) s.kernel.activeTcb with
  | (_, .idle) => true
  | _ => false

/-- The CPU has pushed the frame of the active thread into its block. -/
def Sys.framed (s : Sys) (error : Option Word) : Sys :=
  { s with kernel := s.kernel.updTcb s.active fun t => t.pushFrame s.cpu error }

/-- The thread that a call lets go on outside the entries. -/
def Sys.outside (P : Platform) (s : Sys) (c : Call) : Option Ptr :=
  match c, c.body P.pages s.kernel with
  | .threadCreate, some (.id i, k) => if i = 0 then none else some (tcbGet k i)
  | .threadPushState thread stateClass _ _, some (.bool true, k) =>
    if stateClass &&& pinionThreadStateClassRegsIp ≠ 0 then some (tcbGet k thread) else none
  | _, _ => none

namespace Gated

def active (g : Gated) : Ptr := g.sys.active

def setStub (g : Gated) (p : Ptr) (x : Option AtStub) : Gated :=
  { g with stub := Function.update g.stub p x }

/-- Behind the gate the active thread goes on at the stub. -/
def gate (H : Handlers) (g : Gated) (v : BitVec 32) (e : Event) : Gated :=
  let s := (g.sys.struck e).framed (cpuError v e.error)
  let st : AtStub := ⟨v, (g.stub g.active).map AtStub.vector⟩
  { g with sys := { s with cpu := s.cpu.atStub (H.stub v) (stubStack g.active v) } }.setStub g.active
    (some st)

/-- The stub saves the core beside the frame that it finds in the block. -/
def saved (g : Gated) : Sys :=
  { g.sys with cpu := g.sys.cpu.withFrame (g.sys.kernel.tcb g.active).regs }

/-- Where the trap leaves a thread whose frame leads back. -/
def behind (g : Gated) (st : AtStub) : Sys :=
  match st.struck, g.sys.pos g.active with
  | none, .tail e => if st.vector = 0x100 then g.saved.setPos g.active (.ret e) else g.saved
  | _, _ => g.saved

def run (P : Platform) (g : Gated) (st : AtStub) : Gated :=
  let error := st.error (g.sys.kernel.tcb g.active)
  let s := (g.behind st).enter P st.vector error
  let g' : Gated := { g with sys := s }.setStub g.active (st.struck.map .lost)
  if g.saved.idles P st.vector error then g'.setStub s.active none else g'

/-- Where the threads stand behind an event that is no trap and leads to s. -/
def strike (P : Platform) (g : Gated) (s : Sys) : Event → Gated
  | .interrupt v _ _ =>
    let g' : Gated := { g with sys := s }.setStub g.active
      ((g.stub g.active).map fun st : AtStub => .lost st.vector)
    if g.sys.idles P v 0 then g'.setStub s.active none else g'
  | .call c =>
    match g.sys.outside P c with
    | some p => { g with sys := s }.setStub p none
    | none => { g with sys := s }
  | _ => { g with sys := s }

/-- A stub whose stack is not that of the block, because a state has been pushed to its thread, is not
followed. -/
def step (P : Platform) (H : Handlers) (g : Gated) : Moment → Option Gated
  | .event e =>
    if (g.stub g.active).isSome ∧ e.comesIn = false then none
    else
      match e.trap with
      | some v => (g.sys.step P e).map fun _ => g.gate H v e
      | none => (g.sys.step P e).map fun s => g.strike P s e
  | .stub =>
    match g.stub g.active with
    | some st =>
      if g.sys.halted = false ∧ g.sys.cpu.rsp = stubStack g.active st.vector then
        some (g.run P st)
      else none
    | none => none

/-- The event of the system whose part in the kernel a moment takes. -/
def event (g : Gated) : Moment → Option Event
  | .event e => if e.trap.isSome then none else some e
  | .stub => (g.stub g.active).map fun st => st.event (g.sys.kernel.tcb g.active).error g.sys.cr2

end Gated

def lowHandlers : Handlers := ⟨fun _ => 0, fun _ => 0, 0⟩

def Boot.gated {P : Platform} (b : Boot P) : Gated := ⟨b.sys, fun _ => none⟩

end Definitions

variable {P : Platform} {H : Handlers} {s s' : Sys} {e : Event} {g g' g₁ : Gated} {m : Moment}
  {st : AtStub} {p t : Ptr} {v : BitVec 32}

section Parts

/-- The stub of a trap is what idt_init has put behind its gate. -/
theorem Handlers.stub_gate (h : e.trap = some v) :
    H.gate (if v = 0x100 then 255 else v) = (.trap, H.stub v) := by
  cases e with
  | interrupt w er cr2 =>
    simp only [Event.trap, Option.ite_none_right_eq_some] at h
    obtain ⟨hlt, hw⟩ := h
    obtain rfl := Option.some.inj hw
    have hne : w ≠ 0x100 := by
      rintro rfl
      exact absurd hlt (by decide)
    have h255 : w ≠ 255 := by
      rintro rfl
      exact absurd hlt (by decide)
    rw [if_neg hne, Handlers.gate, if_neg h255, if_pos hlt, Handlers.stub, if_neg hne]
  | yield =>
    obtain rfl := Option.some.inj h
    rfl
  | _ => cases h

theorem Gated.step_event (h : g.step P H (.event e) = some g') :
    ((g.stub g.active).isSome → e.comesIn = true) ∧ ∃ s, g.sys.step P e = some s ∧
      ((∃ v, e.trap = some v ∧ g' = g.gate H v e) ∨ e.trap = none ∧ g' = g.strike P s e) := by
  simp only [Gated.step] at h
  split_ifs at h with hin
  have hcome : (g.stub g.active).isSome → e.comesIn = true := fun hs =>
    (Bool.eq_false_or_eq_true _).resolve_right fun hc => hin ⟨hs, hc⟩
  cases ht : e.trap with
  | some v =>
    rw [ht] at h
    obtain ⟨s, hst, rfl⟩ := Option.map_eq_some_iff.mp h
    exact ⟨hcome, s, hst, Or.inl ⟨v, rfl, rfl⟩⟩
  | none =>
    rw [ht] at h
    obtain ⟨s, hst, rfl⟩ := Option.map_eq_some_iff.mp h
    exact ⟨hcome, s, hst, Or.inr ⟨rfl, rfl⟩⟩

theorem Gated.step_stub (h : g.step P H .stub = some g') :
    ∃ st, g.stub g.active = some st ∧ g.sys.halted = false ∧ g' = g.run P st := by
  simp only [Gated.step] at h
  cases hst : g.stub g.active with
  | none => simp [hst] at h
  | some st =>
    simp only [hst] at h
    split_ifs at h with hok
    exact ⟨st, rfl, hok.1, (Option.some.inj h).symm⟩

theorem Gated.strike_sys (g : Gated) (s : Sys) (e : Event) : (g.strike P s e).sys = s := by
  cases e with
  | interrupt w er cr2 =>
    simp only [Gated.strike]
    split_ifs <;> rfl
  | call c =>
    simp only [Gated.strike]
    split <;> rfl
  | _ => rfl

theorem Gated.run_sys (g : Gated) (st : AtStub) : (g.run P st).sys =
    (g.behind st).enter P st.vector (st.error (g.sys.kernel.tcb g.active)) := by
  simp only [Gated.run]
  split_ifs <;> rfl

/-- Saving what the gate and the stub hand over is saving the state of the trap. -/
theorem saveState_gate (k : Kernel) (r : Regs) (error : Option Word) (er : Word) :
    saveState (k.updTcb k.activeTcb fun t => t.pushFrame r error) r v er = saveState k r v er :=
  Kernel.updTcb_updTcb ..

theorem enter_framed (s : Sys) (error : Option Word) (iv : BitVec 32) (er : Word) :
    (s.framed error).enter P iv er = s.enter P iv er := by
  have hsave := saveState_gate (v := iv) s.kernel s.cpu error er
  simp only [Sys.enter, Sys.framed, Sys.active] at hsave ⊢
  rw [hsave]

theorem Gated.gate_active (g : Gated) : (g.gate H v e).active = g.active := g.sys.struck_active e

theorem Gated.gate_stub (g : Gated) :
    (g.gate H v e).stub g.active = some ⟨v, (g.stub g.active).map AtStub.vector⟩ :=
  Function.update_self ..

theorem Sys.framed_block (s : Sys) (error : Option Word) :
    (s.framed error).kernel.tcb s.active = (s.kernel.tcb s.active).pushFrame s.cpu error :=
  s.kernel.updTcb_self s.active fun t => t.pushFrame s.cpu error

theorem Gated.gate_block (g : Gated) : (g.gate H v e).sys.kernel.tcb (g.gate H v e).active =
    ((g.sys.struck e).kernel.tcb (g.sys.struck e).active).pushFrame (g.sys.struck e).cpu
      (cpuError v e.error) :=
  (g.sys.struck e).framed_block (cpuError v e.error)

/-- The stub gets back from the block what the gate has put there. -/
theorem Gated.gate_saved (g : Gated) :
    (g.gate H v e).saved = (g.sys.struck e).framed (cpuError v e.error) := by
  rw [saved, gate_block]
  rfl

/-- The error code that the stub hands on. -/
theorem Gated.gate_error (g : Gated) :
    (⟨v, none⟩ : AtStub).error ((g.gate H v e).sys.kernel.tcb (g.gate H v e).active) =
      if v ∈ errorVectors then e.error else 0 := by
  rw [AtStub.error]
  by_cases hv : v ∈ errorVectors
  · rw [if_pos hv, if_pos hv, gate_block, Tcb.pushFrame, cpuError, if_pos (Or.inl hv)]
    rfl
  · rw [if_neg hv, if_neg hv]

/-- A trap whose gate and stub follow one upon the other is the trap of the system. -/
theorem gate_stub (hg : g.stub g.active = none) (hv : e.trap = some v)
    (hst : g.step P H (.event e) = some g₁) :
    ∃ g₂, g₁.step P H .stub = some g₂ ∧ g.sys.step P e = some g₂.sys := by
  obtain ⟨-, s', hs', h⟩ := Gated.step_event hst
  obtain ⟨w, hw, rfl⟩ := h.resolve_right fun hc => by simp [hv] at hc
  obtain rfl := Option.some.inj (hv.symm.trans hw)
  have hstub : (g.gate H v e).stub (g.gate H v e).active = some ⟨v, none⟩ := by
    rw [g.gate_active, g.gate_stub, hg]
    rfl
  have hrun : (g.gate H v e).sys.halted = false :=
    ((g.sys.struck_halted e).trans (Bool.not_eq_true _ ▸ Sys.step_running hs'))
  refine ⟨(g.gate H v e).run P ⟨v, none⟩, ?_, ?_⟩
  · simp only [Gated.step, hstub]
    refine if_pos ⟨hrun, ?_⟩
    rw [g.gate_active]
    rfl
  · rw [Gated.run_sys, g.gate_error]
    have hpos : (g.gate H v e).sys.pos (g.gate H v e).active = g.sys.pos g.active := by
      rw [g.gate_active]
      exact congrFun (g.sys.struck_pos e) g.active
    cases e with
    | interrupt w er cr2 =>
      obtain ⟨hlt, hw⟩ : w < 32 ∧ some w = some v := by simpa [Event.trap] using hv
      obtain rfl := Option.some.inj hw
      have hne : w ≠ 0x100 := by
        rintro rfl
        exact absurd hlt (by decide)
      have hbehind : (g.gate H w (.interrupt w er cr2)).behind ⟨w, none⟩ =
          (g.sys.struck (.interrupt w er cr2)).framed (cpuError w er) := by
        rw [Gated.behind, hpos]
        cases hx : g.sys.pos g.active with
        | tail x => exact (if_neg hne).trans (g.gate_saved)
        | _ => exact g.gate_saved
      rw [hbehind, enter_framed]
      have hin : Installed w := (Sys.interrupt_cases hs').1
      simp only [Sys.step, if_neg (Sys.step_running hs'), if_pos hin]
      rfl
    | yield =>
      obtain rfl := Option.some.inj hv
      rcases Sys.yield_cases hs' with ⟨hu, hi, -⟩ | ⟨x, hx, -⟩
      · have hbehind : (g.gate H 0x100 .yield).behind ⟨0x100, none⟩ =
            (g.sys.struck .yield).framed none := by
          rw [Gated.behind, hpos, show g.sys.pos g.active = .user from hu]
          exact g.gate_saved
        have hregs : g.sys.struck .yield = g.sys := by
          rw [Sys.struck, Sys.yieldRegs, hu]
        rw [hbehind, enter_framed, hregs]
        simp only [Sys.step, if_neg (Sys.step_running hs'), hu]
        exact if_pos hi
      · have hbehind : (g.gate H 0x100 .yield).behind ⟨0x100, none⟩ =
            ((g.sys.struck .yield).setPos g.active (.ret x)).framed none := by
          rw [Gated.behind, hpos, show g.sys.pos g.active = .tail x from hx, g.gate_saved]
          rfl
        have hregs : g.sys.struck .yield = { g.sys with cpu := { g.sys.cpu with rdi := x.yieldCode } } := by
          rw [Sys.struck, Sys.yieldRegs, hx]
        rw [hbehind, enter_framed, hregs]
        simp only [Sys.step, if_neg (Sys.step_running hs'), hx]
        rfl
    | _ => cases hv

end Parts

end Pinion64
