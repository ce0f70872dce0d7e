import Pinion64.Hearing

/-! What becomes of the registers of a thread from one event to the next: who is not on the core, or
is interrupted, keeps them but for what is written to its block. -/
namespace Pinion64
open Intrusive Transition

section Definitions

/-- The core as an interrupt or a trap finds it. -/
def Sys.struck (s : Sys) : Event → Sys
  | .interrupt v _ cr2 => if v = 14 then { s with cr2 := cr2 } else s
  | .yield => { s with cpu := s.yieldRegs }
  | _ => s

def Event.Interrupts : Event → Prop
  | .interrupt .. => True
  | .yield => True
  | _ => False

instance (e : Event) : Decidable e.Interrupts :=
  match e with
  | .interrupt .. => isTrue trivial
  | .yield => isTrue trivial
  | .run _ => isFalse id
  | .call _ => isFalse id
  | .ret => isFalse id

/-- The vector that fires and answers the wait of the thread. -/
def Sys.answer (s : Sys) (t : Ptr) (e : Event) : Option (BitVec 16) :=
  ([.pagefault, .miscfault, .zombie] : List TcbQueue).map TcbQueue.vector |>.find? fun v =>
    decide (s.kernel.Listens t ∧ s.Sounds e t v)

/-- The registers of a thread with what the event writes to its block: the state that is pushed, or
the vector that wakes it. -/
def Sys.written (s : Sys) (t : Ptr) (e : Event) (r : Regs) : Regs :=
  match e with
  | .call (.threadPushState thread stateClass state b) =>
    if Accepts s.kernel thread state ∧ tcbGet s.kernel thread = t then pushRegs r stateClass b
    else r
  | e =>
    match s.answer t e with
    | some v => r.setRax (v.setWidth 64)
    | none => r

end Definitions

variable {P : Platform} {s s' : Sys} {e : Event} {t : Ptr} {v : BitVec 16} {r : Regs}

section Struck

theorem Sys.struck_kernel (s : Sys) (e : Event) : (s.struck e).kernel = s.kernel := by
  cases e with
  | interrupt w er cr2 =>
    rw [Sys.struck]
    split_ifs <;> rfl
  | _ => rfl

theorem Sys.struck_pos (s : Sys) (e : Event) : (s.struck e).pos = s.pos := by
  cases e with
  | interrupt w er cr2 =>
    rw [Sys.struck]
    split_ifs <;> rfl
  | _ => rfl

theorem Sys.struck_halted (s : Sys) (e : Event) : (s.struck e).halted = s.halted := by
  cases e with
  | interrupt w er cr2 =>
    rw [Sys.struck]
    split_ifs <;> rfl
  | _ => rfl

theorem Sys.struck_active (s : Sys) (e : Event) : (s.struck e).active = s.active :=
  congrArg Kernel.activeTcb (s.struck_kernel e)

theorem struck_threadRegs (s : Sys) (e : Event) (t : Ptr) : (s.struck e).threadRegs t =
    if t = s.active then (s.struck e).cpu else s.threadRegs t := by
  rw [Sys.threadRegs, s.struck_active, s.struck_kernel, Sys.threadRegs]
  split_ifs <;> rfl

end Struck

section Answer

theorem Sys.answer_some (h : s.answer t e = some v) : s.kernel.Listens t ∧ s.Sounds e t v := by
  simpa using List.find?_some h

theorem Sys.answer_iff : s.answer t e = some v ↔ s.kernel.Listens t ∧ s.Sounds e t v := by
  refine ⟨Sys.answer_some, fun h => ?_⟩
  obtain ⟨q, rfl⟩ := Sys.fires_queue h.2.1
  have hmem : q.vector ∈ ([.pagefault, .miscfault, .zombie] : List TcbQueue).map
      TcbQueue.vector := by
    cases q <;> simp
  have hfind : (s.answer t e).isSome = true :=
    List.find?_isSome.mpr ⟨q.vector, hmem, decide_eq_true h⟩
  obtain ⟨w, hw⟩ := Option.isSome_iff_exists.mp hfind
  rw [hw, Sys.fires_unique (Sys.answer_some hw).2.1 h.2.1]

/-- A waiting thread whose tap is flagged has been answered. -/
theorem Sys.Sounds.answers (h : s.Sounds e t v) (hs : SysSound P s) (hst : s.step P e = some s')
    (hq : Quiet s'.kernel) (hl : s'.kernel.Live t) : ¬ s'.kernel.Listens t := by
  obtain ⟨hfires, i, hr⟩ := h
  obtain ⟨q, rfl⟩ := Sys.fires_queue hfires
  have htap := tap_step hs hst t i
  rw [if_pos ⟨q, hfires, hr⟩] at htap
  intro hw
  have hzero := hq t hl hw i
  rw [htap] at hzero
  exact Tcb.flagged_flag _ hzero

/-- Nothing but the answer to its wait is written to the block of a thread. -/
theorem written_patched (hs : SysSound P s) (hst : s.step P e = some s') (hq : Quiet s'.kernel)
    (hl : s'.kernel.Live t) (hc : ∀ c, e = .call c → t ≠ s.active)
    (hkept : s.RegsPatched s' (fun v => s.Fires v e) t)
    (hpends : ∀ v, s.answer t e = some v → s'.kernel.Listens t ∨
      Patched s.kernel (fun v => s.Fires v e) t (s'.threadRegs t).rax) :
    s'.threadRegs t = match s.answer t e with
      | some v => (s.threadRegs t).setRax (v.setWidth 64)
      | none => s.threadRegs t := by
  cases ha : s.answer t e with
  | none =>
    refine hkept.resolve_right ?_
    rintro ⟨w, ⟨q, hf, ⟨j, hfired⟩, hw, -⟩, -⟩
    have hsome := Sys.answer_iff.mpr ⟨hw, hf, j, hfired.rings hc⟩
    rw [ha] at hsome
    cases hsome
  | some v =>
    obtain ⟨-, hsound⟩ := Sys.answer_iff.mp ha
    obtain ⟨q, hf, -, -, hrax⟩ := (hpends v ha).resolve_left (hsound.answers hs hst hq hl)
    rw [Sys.fires_unique hf hsound.1] at hrax
    change _ = (s.threadRegs t).setRax (v.setWidth 64)
    rw [← hrax]
    rcases hkept with hsame | ⟨w, -, hsame⟩
    · rw [← hsame]
      rfl
    · rw [hsame]
      rfl

end Answer

section Events

theorem Sys.struck_yield (s : Sys) (t : Ptr) :
    (s.struck .yield).threadRegs t = if t = s.active then s.yieldRegs else s.threadRegs t := by
  rw [Sys.threadRegs, Sys.threadRegs]
  change (if t = s.active then _ else _) = _
  split_ifs <;> rfl

theorem Sys.struck_interrupt (s : Sys) (v : BitVec 32) (er cr2 : Word) (t : Ptr) :
    (s.struck (.interrupt v er cr2)).threadRegs t = s.threadRegs t := by
  rw [Sys.struck]
  split_ifs <;> rfl

/-- An event that fires no vector answers nobody. -/
theorem Sys.answer_none (h : ∀ v, ¬ s.Fires v e) : s.answer t e = none := by
  cases ha : s.answer t e with
  | none => rfl
  | some v => exact absurd (Sys.answer_some ha).2.1 (h v)

/-- Who is interrupted, or not on the core, keeps its registers but for what is written to its
block. -/
theorem written_regs (hs : SysSound P s) (hq : Quiet s.kernel) (hst : s.step P e = some s')
    (hl : s.kernel.Live t) (hl' : s'.kernel.Live t) (hi : t = s.active → e.Interrupts) :
    s'.threadRegs t = s.written t e ((s.struck e).threadRegs t) := by
  have hq' := hq.step hs hst
  cases e with
  | run regs =>
    have hne : t ≠ s.active := fun hc => hi hc
    obtain ⟨-, rfl⟩ := Sys.run_cases hst
    simp only [Sys.written, Sys.answer_none (s := s) (e := .run regs) fun _ => id]
    exact (if_neg hne).trans (if_neg hne).symm
  | ret =>
    obtain ⟨x, -, rfl⟩ := Sys.ret_cases hst
    simp only [Sys.written, Sys.answer_none (s := s) (e := .ret) fun _ => id]
    rfl
  | yield =>
    obtain ⟨-, -, hregs⟩ := yield_kept hs hst hl
    simp only [Sys.written, Sys.answer_none (s := s) (e := .yield) fun _ => id]
    exact hregs.trans (s.struck_yield t).symm
  | interrupt v er cr2 =>
    obtain ⟨-, -, hkept⟩ := interrupt_kept hs hst hl
    rw [Sys.struck_interrupt]
    refine written_patched hs hst hq' hl' (by simp) hkept fun w hw => ?_
    obtain ⟨hwait, ⟨q, hq, -⟩, -⟩ := Sys.answer_some hw
    refine interrupt_pends hs hst hl hwait fun _ hpre => ?_
    rw [hpre.1] at hq
    cases hq
  | call c =>
    have hne : t ≠ s.active := fun hc => hi hc
    change s'.threadRegs t = s.written t (.call c) (s.threadRegs t)
    rcases call_kept hs hst hne hl hl' with ⟨th, cls, st, b, rfl, ha, ht, hregs⟩ | ⟨hno, hkept⟩
    · rw [hregs, Sys.written, if_pos ⟨ha, ht.symm⟩]
    · have hpatched := written_patched hs hst hq' hl' (fun _ _ => hne) hkept fun w hw =>
        call_pends hs hst hne hl hl' (Sys.answer_some hw).1
      rw [hpatched]
      cases c with
      | threadPushState th cls st b =>
        rw [Sys.written, if_neg fun hc => hno th cls st b rfl hc.1 hc.2.symm,
          Sys.answer_none fun _ => id]
      | _ => rfl

/-- The thread is reaped. -/
def Sys.Reaps (s : Sys) (t : Ptr) (e : Event) : Prop :=
  ∃ thread, e = .call (.threadReap thread) ∧ tcbGet s.kernel thread = t ∧
    s.kernel.state t = tcbStateSuspended

/-- A thread that is not suspended cannot be reaped. -/
theorem reap_refused (hs : SysSound P s) {th : BitVec 32}
    (hst : s.step P (.call (.threadReap th)) = some s') (hl : s.kernel.Live (tcbGet s.kernel th))
    (hstate : s.kernel.state (tcbGet s.kernel th) ≠ tcbStateSuspended) : s'.kernel = s.kernel := by
  obtain ⟨-, -, r, hb⟩ := hs.step_call hst
  have hk : (apilogicThreadReap s.kernel th).2 = s'.kernel :=
    congrArg Prod.snd (Option.some.inj hb)
  rw [← hk, apilogicThreadReap]
  simp only [if_neg hl.1, if_pos (show (s.kernel.tcb (tcbGet s.kernel th)).state ≠ _ from hstate)]

theorem live_unless_reaped (hs : SysSound P s) (hst : s.step P e = some s') (hl : s.kernel.Live t)
    (hr : ¬ s.Reaps t e) : s'.kernel.Live t := by
  by_cases hcall : ∃ th, e = .call (.threadReap th) ∧ tcbGet s.kernel th = t
  · obtain ⟨th, rfl, rfl⟩ := hcall
    rw [reap_refused hs hst hl fun hc => hr ⟨th, rfl, rfl, hc⟩]
    exact hl
  · refine (hs.step hst).2.keep (I := fun a => a.Live t) hl hs.sound fun a f b ha hsa he hm hb =>
      Effect.live_of_ne hsa he hb (fun hf => ?_) ha
    subst hf
    obtain ⟨th, rfl, hth⟩ := hm.reap
    exact hcall ⟨th, rfl, hth.symm⟩

end Events

end Pinion64
