import Pinion64.Readback
import Pinion64.Routes

/-! What a thread finds in rax when it comes back from wait: the answer of the body, or the vector
that woke it. -/
namespace Pinion64
open Intrusive Transition

variable {P : Platform} {k k' : Kernel} {s s' : Sys} {e : Event} {p : Ptr} {f : Effect}

section Registers

/-- The registers of a thread, on the core or in its block. -/
def Sys.threadRegs (s : Sys) (p : Ptr) : Regs :=
  if p = s.active then s.cpu else (s.kernel.tcb p).regs

theorem Sys.threadRegs_of_eq (h : p = s.active) : s.threadRegs p = s.cpu := if_pos h

theorem Sys.threadRegs_of_ne (h : p ≠ s.active) : s.threadRegs p = (s.kernel.tcb p).regs := if_neg h

theorem Sys.threadRegs_congr (hk : s'.kernel = s.kernel) (hc : s'.cpu = s.cpu) :
    s'.threadRegs p = s.threadRegs p := by
  rw [Sys.threadRegs, Sys.threadRegs, Sys.active, Sys.active, hk, hc]

def Regs.setRax (r : Regs) (w : Word) : Regs := { r with rax := w }

/-- A vector of a report queue has been written to rax of a waiting thread that its route names. -/
def Patched (k : Kernel) (fires : BitVec 16 → Prop) (p : Ptr) (w : Word) : Prop :=
  ∃ q : TcbQueue, fires q.vector ∧ (∃ j, Fired k q.vector p j) ∧
    (k.state p = tcbStateWaiting ∨ k.state p = tcbStateSuspendedWaiting) ∧
    w = q.vector.setWidth 64

/-- One step keeps the registers of a block, or writes a firing vector to its rax. -/
theorem regs_effect {a b : Kernel} {fires : BitVec 16 → Prop} (hs : Sound P a) (he : Enabled P a f)
    (hb : f.apply P a = some b) (hl : b.Live p ∧ a.Live p)
    (hwake : ∀ v j, f = .wake v p j → (∃ q : TcbQueue, fires q.vector ∧ v = q.vector) ∧
      Fired k v p j ∧ k.state p = tcbStateWaiting)
    (hunwait : ∀ v j, f = .unwait v p j → (∃ q : TcbQueue, fires q.vector ∧ v = q.vector) ∧
      Fired k v p j ∧ k.state p = tcbStateSuspendedWaiting)
    (hregs : ∀ t r iv sv er, f = .regs t r iv sv er → p ≠ t) :
    (b.tcb p).regs = (a.tcb p).regs ∧ (∀ v j, f ≠ .wake v p j ∧ f ≠ .unwait v p j) ∨
      ∃ w, Patched k fires p w ∧ (b.tcb p).regs = (a.tcb p).regs.setRax w := by
  have hdata := (Effect.data hs he hb (Or.inl hl)).2
  cases f with
  | wake v t j =>
    rw [Effect.regsOf] at hdata
    split_ifs at hdata with hp
    · subst hp
      obtain ⟨⟨q, hq, rfl⟩, hf, hw⟩ := hwake v j rfl
      exact Or.inr ⟨_, ⟨q, hq, ⟨j, hf⟩, Or.inl hw, rfl⟩, hdata⟩
    · exact Or.inl ⟨hdata, fun _ _ => ⟨by simp [Ne.symm hp], by simp⟩⟩
  | unwait v t j =>
    rw [Effect.regsOf] at hdata
    split_ifs at hdata with hp
    · subst hp
      obtain ⟨⟨q, hq, rfl⟩, hf, hw⟩ := hunwait v j rfl
      exact Or.inr ⟨_, ⟨q, hq, ⟨j, hf⟩, Or.inr hw, rfl⟩, hdata⟩
    · exact Or.inl ⟨hdata, fun _ _ => ⟨by simp, by simp [Ne.symm hp]⟩⟩
  | regs t r iv sv er =>
    rw [Effect.regsOf, if_neg (hregs t r iv sv er rfl)] at hdata
    exact Or.inl ⟨hdata, fun _ _ => ⟨by simp, by simp⟩⟩
  | _ => exact Or.inl ⟨hdata, fun _ _ => ⟨by simp, by simp⟩⟩

theorem rax_effect {a b : Kernel} {fires : BitVec 16 → Prop} (hs : Sound P a) (he : Enabled P a f)
    (hb : f.apply P a = some b) (hl : b.Live p ∧ a.Live p)
    (hwake : ∀ v j, f = .wake v p j → (∃ q : TcbQueue, fires q.vector ∧ v = q.vector) ∧
      Fired k v p j ∧ k.state p = tcbStateWaiting)
    (hunwait : ∀ v j, f = .unwait v p j → (∃ q : TcbQueue, fires q.vector ∧ v = q.vector) ∧
      Fired k v p j ∧ k.state p = tcbStateSuspendedWaiting)
    (hregs : ∀ t r iv sv er, f = .regs t r iv sv er → p ≠ t) :
    (b.tcb p).regs.rax = (a.tcb p).regs.rax ∧ (∀ v j, f ≠ .wake v p j ∧ f ≠ .unwait v p j) ∨
      Patched k fires p (b.tcb p).regs.rax := by
  rcases regs_effect hs he hb hl hwake hunwait hregs with ⟨h, hno⟩ | ⟨w, hw, h⟩
  · exact Or.inl ⟨congrArg Regs.rax h, hno⟩
  · right
    rw [h]
    exact hw

/-- What the steps of an event leave in the registers of a block. -/
def RegsKept (k₀ : Kernel) (fires : BitVec 16 → Prop) (p : Ptr) (k : Kernel) : Prop :=
  (k.tcb p).regs = (k₀.tcb p).regs ∨
    ∃ w, Patched k₀ fires p w ∧ (k.tcb p).regs = (k₀.tcb p).regs.setRax w

theorem RegsKept.effect {a b : Kernel} {fires : BitVec 16 → Prop} (h : RegsKept k fires p a)
    (hr : (b.tcb p).regs = (a.tcb p).regs ∨
      ∃ w, Patched k fires p w ∧ (b.tcb p).regs = (a.tcb p).regs.setRax w) :
    RegsKept k fires p b := by
  rcases hr with hr | ⟨w, hw, hr⟩
  · rw [RegsKept, hr]
    exact h
  · refine Or.inr ⟨w, hw, hr.trans ?_⟩
    rcases h with h | ⟨_, -, h⟩
    · rw [h]
    · rw [h]
      rfl

/-- A handler leaves every thread in place, and its registers but for the patch of a firing
vector. -/
theorem handler_regs {iv : BitVec 32} {rdi : Word} (hs : Sound P k)
    (h : Effects P (HandlerMay k iv rdi) k k') (hl : k.Live p) :
    k'.Live p ∧ RegsKept k (fun v => ∃ q, faultQueue iv = some q ∧ v = q.vector) p k' := by
  refine h.keep (I := fun a => a.Live p ∧
    RegsKept k (fun v => ∃ q, faultQueue iv = some q ∧ v = q.vector) p a)
    ⟨hl, Or.inl rfl⟩ hs fun a f b ha hsa he hm hb => ?_
  have hlive : b.Live p := by
    refine Effect.live_mono hsa he hb (fun x => ?_) ha.1
    rintro rfl
    exact hm.elim
  refine ⟨hlive, ha.2.effect ((regs_effect hsa he hb ⟨hlive, ha.1⟩ ?_ ?_ ?_).imp_left And.left)⟩
  · rintro v j rfl
    obtain ⟨⟨q, hq, rfl⟩, hf, hw⟩ := hm
    exact ⟨⟨q, ⟨q, hq, rfl⟩, rfl⟩, hf, hw⟩
  · rintro v j rfl
    obtain ⟨⟨q, hq, rfl⟩, hf, hw⟩ := hm
    exact ⟨⟨q, ⟨q, hq, rfl⟩, rfl⟩, hf, hw⟩
  · rintro t r iv sv er rfl
    exact hm.elim

end Registers

section Trap

theorem saveState_regs (k : Kernel) (cpu : Regs) (iv : BitVec 32) (error : Word) :
    ((saveState k cpu iv error).tcb k.activeTcb).regs = cpu :=
  congrArg Tcb.regs (Kernel.updTcb_self ..)

theorem enter_regs (s : Sys) (iv : BitVec 32) (error : Word) (hi : p ≠ P.idleTcb)
    (hidle : (fault P (saveState s.kernel s.cpu iv error) s.kernel.activeTcb).2 = .idle →
      (fault P (saveState s.kernel s.cpu iv error) s.kernel.activeTcb).1.activeTcb = P.idleTcb)
    (hhang : (fault P (saveState s.kernel s.cpu iv error) s.kernel.activeTcb).2 = .hang →
      (fault P (saveState s.kernel s.cpu iv error) s.kernel.activeTcb).1 =
        saveState s.kernel s.cpu iv error) :
    (s.enter P iv error).threadRegs p = ((s.enter P iv error).kernel.tcb p).regs ∧
      (s.enter P iv error).pos p = s.pos p := by
  have hactive : (saveState s.kernel s.cpu iv error).activeTcb = s.kernel.activeTcb := rfl
  simp only [Sys.enter, hactive]
  generalize fault P (saveState s.kernel s.cpu iv error) s.kernel.activeTcb = r at hidle hhang ⊢
  obtain ⟨k', fl⟩ := r
  cases fl with
  | resume =>
    refine ⟨?_, rfl⟩
    by_cases hp : p = k'.activeTcb
    · rw [Sys.threadRegs_of_eq hp, hp]
    · rw [Sys.threadRegs_of_ne hp]
  | idle =>
    have hne : p ≠ k'.activeTcb := fun hc => hi (hc.trans (hidle rfl))
    exact ⟨if_neg hne, Function.update_of_ne hne ..⟩
  | hang =>
    obtain rfl := hhang rfl
    refine ⟨?_, rfl⟩
    let s₁ : Sys := { s with kernel := saveState s.kernel s.cpu iv error, halted := true }
    change s₁.threadRegs p = (s₁.kernel.tcb p).regs
    by_cases hp : p = s.kernel.activeTcb
    · rw [Sys.threadRegs_of_eq (s := s₁) hp, hp]
      exact (saveState_regs ..).symm
    · rw [Sys.threadRegs_of_ne (s := s₁) hp]

/-- A trap in its parts, as a thread sees it: its registers are saved, the handler takes its steps,
and the thread stands where it stood. -/
structure Trapped (P : Platform) (s s' : Sys) (iv : BitVec 32) (k₀ : Kernel) (p : Ptr) : Prop where
  sound : Sound P k₀
  saved : (k₀.tcb p).regs = s.threadRegs p
  handler : Effects P (HandlerMay k₀ iv s.cpu.rdi) k₀ s'.kernel
  regs : s'.threadRegs p = (s'.kernel.tcb p).regs
  pos : s'.pos p = s.pos p

theorem enter_trapped (iv : BitVec 32) (error : Word) (hs : Sound P s.kernel) (ha : s.active ≠ 0)
    (hl : s.kernel.Live p) :
    Trapped P s (s.enter P iv error) iv (saveState s.kernel s.cpu iv error) p := by
  let k₀ := saveState s.kernel s.cpu iv error
  have hsave : Effects P (fun _ => True) s.kernel k₀ :=
    .single (e := .regs s.kernel.activeTcb s.cpu iv 0 error) trivial trivial rfl
  have hs₀ : Sound P k₀ := hs.effects hsave
  have hsame : k₀.tcb k₀.activeTcb = { s.kernel.tcb s.kernel.activeTcb with
      regs := s.cpu, ivect := iv, saved := 0, error := error } := Kernel.updTcb_self ..
  obtain ⟨heff, hend⟩ := fault_effects hs₀ ha
  rw [hsame] at heff hend
  have hi : p ≠ P.idleTcb := by
    obtain ⟨run, free, hc⟩ := hs
    exact hc.live_ne_idle hl
  obtain ⟨hregs, hpos⟩ := enter_regs s iv error hi hend.idle fun hf => (hend.hang hf).1
  refine ⟨hs₀, ?_, ?_, hregs, hpos⟩
  · by_cases hp : p = s.active
    · rw [Sys.threadRegs_of_eq hp, hp]
      exact saveState_regs ..
    · rw [Sys.threadRegs_of_ne hp]
      exact congrArg Tcb.regs (Kernel.updTcb_of_ne _ _ _ _ hp)
  · rw [enter_kernel]
    exact heff

theorem Patched.before {cpu : Regs} {iv : BitVec 32} {error w : Word} {fires : BitVec 16 → Prop}
    (h : Patched (saveState k cpu iv error) fires p w) : Patched k fires p w := by
  obtain ⟨q, hq, ⟨j, hf⟩, hw, hv⟩ := h
  have hst := saveState_state k cpu iv error p
  have htap := saveState_tap k cpu iv error p
  rw [hst] at hw
  have hpage : (saveState k cpu iv error).vectorPageTable = k.vectorPageTable := rfl
  exact ⟨q, hq, ⟨j, (fired_congr hpage htap _ j).mp hf⟩, hw, hv⟩

/-- A thread has kept its registers, but for a firing vector written to rax. -/
def Sys.RegsPatched (s s' : Sys) (fires : BitVec 16 → Prop) (p : Ptr) : Prop :=
  s'.threadRegs p = s.threadRegs p ∨ ∃ w, Patched s.kernel fires p w ∧
    s'.threadRegs p = (s.threadRegs p).setRax w

theorem Sys.RegsPatched.rax {fires : BitVec 16 → Prop} (h : s.RegsPatched s' fires p) :
    (s'.threadRegs p).rax = (s.threadRegs p).rax ∨
      Patched s.kernel fires p (s'.threadRegs p).rax := by
  rcases h with h | ⟨w, hw, h⟩
  · exact Or.inl (congrArg Regs.rax h)
  · right
    rw [h]
    exact hw

/-- A trap keeps the registers of every thread but for the patch of a firing vector. -/
theorem enter_kept (iv : BitVec 32) (error : Word) (hs : Sound P s.kernel) (ha : s.active ≠ 0)
    (hl : s.kernel.Live p) :
    (s.enter P iv error).kernel.Live p ∧ (s.enter P iv error).pos p = s.pos p ∧
      s.RegsPatched (s.enter P iv error) (fun v => ∃ q, faultQueue iv = some q ∧ v = q.vector)
        p := by
  have he := enter_trapped (P := P) iv error hs ha hl
  obtain ⟨hlive, hregs⟩ := handler_regs he.sound he.handler hl
  refine ⟨hlive, he.pos, ?_⟩
  rw [Sys.RegsPatched, he.regs, ← he.saved]
  exact hregs.imp_right fun ⟨w, hw, hr⟩ => ⟨w, hw.before, hr⟩

theorem enter_rax (iv : BitVec 32) (error : Word) (hs : Sound P s.kernel) (ha : s.active ≠ 0)
    (hl : s.kernel.Live p) :
    (s.enter P iv error).kernel.Live p ∧ (s.enter P iv error).pos p = s.pos p ∧
      (((s.enter P iv error).threadRegs p).rax = (s.threadRegs p).rax ∨
        Patched s.kernel (fun v => ∃ q, faultQueue iv = some q ∧ v = q.vector) p
          ((s.enter P iv error).threadRegs p).rax) := by
  obtain ⟨hlive, hpos, hregs⟩ := enter_kept iv error hs ha hl
  exact ⟨hlive, hpos, hregs.rax⟩

theorem interrupt_kept (hs : SysSound P s) {v : BitVec 32} {er cr2 : Word}
    (hst : s.step P (.interrupt v er cr2) = some s') (hl : s.kernel.Live p) :
    s'.kernel.Live p ∧ s'.pos p = s.pos p ∧
      s.RegsPatched s' (fun w => s.Fires w (.interrupt v er cr2)) p := by
  obtain ⟨-, x, er', rfl⟩ := Sys.interrupt_cases hst
  exact enter_kept (s := { s with cr2 := x }) v er' hs.sound hs.active hl

theorem interrupt_rax (hs : SysSound P s) {v : BitVec 32} {er cr2 : Word}
    (hst : s.step P (.interrupt v er cr2) = some s') (hl : s.kernel.Live p) :
    s'.kernel.Live p ∧ s'.pos p = s.pos p ∧
      ((s'.threadRegs p).rax = (s.threadRegs p).rax ∨
        Patched s.kernel (fun w => s.Fires w (.interrupt v er cr2)) p (s'.threadRegs p).rax) := by
  obtain ⟨hlive, hpos, hregs⟩ := interrupt_kept hs hst hl
  exact ⟨hlive, hpos, hregs.rax⟩

/-- The registers with which a thread comes to a yield trap: the entries put their code in rdi. -/
def Sys.yieldRegs (s : Sys) : Regs :=
  match s.pos s.active with
  | .tail e => { s.cpu with rdi := e.yieldCode }
  | _ => s.cpu

/-- A yield trap moves its thread on from the tail of an entry, and keeps the registers of every
thread. -/
theorem yield_kept (hs : SysSound P s) (hst : s.step P .yield = some s') (hl : s.kernel.Live p) :
    s'.kernel.Live p ∧ (s'.pos p = s.pos p ∨ ∃ e, p = s.active ∧ s.pos p = .tail e ∧
        s'.pos p = .ret e) ∧
      s'.threadRegs p = if p = s.active then s.yieldRegs else s.threadRegs p := by
  have hnone : ∀ {w}, ¬ Patched s.kernel (fun v => ∃ q, faultQueue 0x100 = some q ∧ v = q.vector) p
      w := by
    intro w hc
    obtain ⟨q, ⟨q', hq, -⟩, -⟩ := hc
    cases hq
  rcases Sys.yield_cases hst with ⟨hu, -, rfl⟩ | ⟨e, hp, rfl⟩
  · obtain ⟨h1, h2, h3⟩ := enter_kept 0x100 0 hs.sound hs.active hl
    refine ⟨h1, Or.inl h2, (h3.resolve_right fun ⟨_, hw, _⟩ => hnone hw).trans ?_⟩
    rw [Sys.yieldRegs, hu, Sys.threadRegs]
    split_ifs <;> rfl
  · let s₁ : Sys := ({ s with cpu := { s.cpu with rdi := e.yieldCode } } : Sys).setPos s.active
      (.ret e)
    obtain ⟨h1, h2, h3⟩ := enter_kept (s := s₁) 0x100 0 hs.sound hs.active hl
    refine ⟨h1, ?_, (h3.resolve_right fun ⟨_, hw, _⟩ => hnone hw).trans ?_⟩
    · by_cases hpa : p = s.active
      · exact Or.inr ⟨e, hpa, hpa ▸ hp, h2.trans (hpa ▸ Function.update_self ..)⟩
      · exact Or.inl (h2.trans (Function.update_of_ne hpa ..))
    · rw [Sys.yieldRegs, hp, Sys.threadRegs, Sys.threadRegs]
      change (if p = s.active then _ else _) = _
      split_ifs <;> rfl

theorem yield_rax (hs : SysSound P s) (hst : s.step P .yield = some s') (hl : s.kernel.Live p) :
    s'.kernel.Live p ∧ (s'.pos p = s.pos p ∨ ∃ e, p = s.active ∧ s.pos p = .tail e ∧
        s'.pos p = .ret e) ∧ (s'.threadRegs p).rax = (s.threadRegs p).rax := by
  obtain ⟨hlive, hpos, hregs⟩ := yield_kept hs hst hl
  refine ⟨hlive, hpos, ?_⟩
  rw [hregs]
  split_ifs with hp
  · rw [Sys.threadRegs_of_eq hp, Sys.yieldRegs]
    split <;> rfl
  · rfl

end Trap

section Call

/-- The thread stands inside wait. -/
def Pos.InWait (x : Pos) : Prop := x = .tail .interruptWait ∨ x = .ret .interruptWait

theorem Pos.InWait.ne_user {x : Pos} (h : x.InWait) : x ≠ .user := by
  rintro rfl
  rcases h with h | h <;> cases h

/-- A trap takes a thread inside wait from the tail to the return of wait. -/
theorem Pos.InWait.yielded {x y : Pos} (h : x.InWait)
    (hy : y = x ∨ ∃ e, x = .tail e ∧ y = .ret e) : y.InWait := by
  rcases hy with rfl | ⟨e, rfl, rfl⟩
  · exact h
  · rcases h with h | h
    · exact Or.inr (congrArg Pos.ret (Pos.tail.inj h))
    · cases h

variable {c : Call}

/-- Only the vectors of the report queues fire. -/
theorem fires_vector {v : BitVec 16} (h : c.Fires k v) :
    ∃ q : TcbQueue, c.Fires k q.vector ∧ v = q.vector := by
  have hv : ∃ q : TcbQueue, v = q.vector := by
    cases c with
    | threadExit => exact ⟨.zombie, h⟩
    | interruptReset vec => exact h.2.2.imp fun _ => And.left
    | interruptSetTap index vec => exact h.2.2.imp fun _ => And.left
    | _ => exact h.elim
  obtain ⟨q, rfl⟩ := hv
  exact ⟨q, h, rfl⟩

/-- Where the threads stand after a call. -/
theorem call_shape (hs : SysSound P s) (hst : s.step P (.call c) = some s') :
    ∃ r, c.body P.pages s.kernel = some (r, s'.kernel) ∧ s'.active = s.active ∧
      s'.cpu.rax = r.rax s.cpu.rax ∧
      (∀ p, p ≠ s.active → s'.pos p = (s.leaveEntry s'.kernel c r).pos p) ∧
      (∀ e, c.entry = some e → s'.pos s.active = .tail e) ∧
      (c.entry = none → s'.pos s.active = .user) := by
  obtain ⟨hp, hi, rfl⟩ := Sys.call_cases hst
  obtain ⟨r, k', hb, -, ha, hk, -⟩ := hs.call hp hi c
  refine ⟨r, hk ▸ hb, (congrArg Kernel.activeTcb hk).trans ha, ?_⟩
  let s₀ : Sys := { s with kernel := k', cpu := { s.cpu with rax := r.rax s.cpu.rax } }
  have hleave : ∀ p, (s₀.leaveEntry k' c r).pos p = (s.leaveEntry k' c r).pos p := by
    intro p
    unfold Sys.leaveEntry
    split
    · split_ifs <;> rfl
    · split_ifs <;> rfl
    · rfl
  have hcpu : (s₀.leaveEntry k' c r).cpu.rax = r.rax s.cpu.rax := by
    unfold Sys.leaveEntry
    split
    · split_ifs <;> rfl
    · split_ifs <;> rfl
    · rfl
  have hact : (s₀.leaveEntry k' c r).active = s.active :=
    (congrArg Kernel.activeTcb (leaveEntry_kernel ..)).trans ha
  have hkern : (s.call P c).kernel = k' := hk
  rw [hkern]
  simp only [Sys.call, hb]
  cases hc : c.entry with
  | some e =>
    refine ⟨hcpu, fun p hne => ?_, fun e' he => ?_, by simp⟩
    · exact (Function.update_of_ne (hact.symm ▸ hne) ..).trans (hleave p)
    · obtain rfl := Option.some.inj he
      change Function.update _ (s₀.leaveEntry k' c r).active _ s.active = _
      rw [hact]
      exact Function.update_self ..
  | none =>
    refine ⟨hcpu, fun p _ => hleave p, by simp, fun _ => ?_⟩
    rcases leaveEntry_pos s₀ k' c r s.active with hx | hx
    · exact hx.trans hp
    · exact hx

theorem waits_of_entry (h : c.entry = some .interruptWait) : c = .interruptWait := by
  cases c <;> simp [Call.entry] at h ⊢

/-- Who is inside wait after a call has just called it, or was there before and has neither been
created nor had its rip pushed. -/
theorem call_inWait (hs : SysSound P s) (hst : s.step P (.call c) = some s')
    (hp : (s'.pos p).InWait) (hl : s'.kernel.Live p) :
    p = s.active ∧ c = .interruptWait ∧
        s'.cpu.rax = (apilogicInterruptWait s.kernel).1.setWidth 64 ∨
      p ≠ s.active ∧ (s.pos p).InWait ∧ s.kernel.Live p ∧ ∀ th cls st b,
        c = .threadPushState th cls st b → Accepts s.kernel th st → p = tcbGet s.kernel th →
          cls &&& pinionThreadStateClassRegsIp = 0 := by
  obtain ⟨r, hb, hact, hrax, hother, hentry, hnone⟩ := call_shape hs hst
  by_cases hpa : p = s.active
  · subst hpa
    refine Or.inl ⟨rfl, ?_⟩
    cases hc : c.entry with
    | none => exact absurd (hnone hc) hp.ne_user
    | some e =>
      rw [hentry e hc] at hp
      obtain rfl : e = .interruptWait := by
        rcases hp with hp | hp
        · exact Pos.tail.inj hp
        · cases hp
      obtain rfl := waits_of_entry hc
      obtain ⟨rfl, -⟩ := Prod.mk.inj (Option.some.inj hb)
      exact ⟨rfl, hrax⟩
  · refine Or.inr ⟨hpa, ?_⟩
    have hpos := hother p hpa
    have hsame : s'.pos p = s.pos p := by
      rcases leaveEntry_pos s s'.kernel c r p with hx | hx
      · exact hpos.trans hx
      · exact absurd (hpos.trans hx) hp.ne_user
    refine ⟨hsame ▸ hp, ?_, ?_⟩
    · by_cases hc : c = .threadCreate
      · subst hc
        have hk : (apilogicThreadCreate P.pages s.kernel).2 = s'.kernel :=
          congrArg Prod.snd (Option.some.inj hb)
        obtain rfl : Reply.id (apilogicThreadCreate P.pages s.kernel).1 = r :=
          congrArg Prod.fst (Option.some.inj hb)
        obtain ⟨run, free, hcoh⟩ := hs.sound
        obtain ⟨t, free', -, hcr⟩ := hcoh.create
        refine ((hcr.live p).mp (hk ▸ hl)).resolve_right ?_
        rintro ⟨hi, rfl⟩
        have hget := (hcr.found hi).1
        rw [hk] at hget
        have huser : (s.leaveEntry s'.kernel .threadCreate
            (.id (apilogicThreadCreate P.pages s.kernel).1)).pos p = .user := by
          simp only [Sys.leaveEntry, if_neg hi, hget]
          exact Function.update_self ..
        exact hp.ne_user (hpos.trans huser)
      · exact step_live hs hst (fun he => hc (Event.call.inj he)) hl
    · rintro th cls st b rfl ha hpt
      by_contra hip
      have hreply : Reply.bool (apilogicThreadPushState s.kernel th cls st b).1 = r :=
        congrArg Prod.fst (Option.some.inj hb)
      have hk : (apilogicThreadPushState s.kernel th cls st b).2 = s'.kernel :=
        congrArg Prod.snd (Option.some.inj hb)
      rw [push_accepted ha] at hreply hk
      have hget : tcbGet s'.kernel th = p := by
        rw [← hk]
        exact hpt.symm
      have huser : (s.leaveEntry s'.kernel (.threadPushState th cls st b) r).pos p = .user := by
        rw [← hreply]
        simp only [Sys.leaveEntry, if_pos hip, hget]
        exact Function.update_self ..
      exact hp.ne_user (hpos.trans huser)

/-- What every step of a call keeps that finds the thread and leaves it, the call keeps. -/
theorem call_block {I : Kernel → Prop} (hs : SysSound P s) (hst : s.step P (.call c) = some s')
    (hl : s.kernel.Live p) (hl' : s'.kernel.Live p) (h0 : I s.kernel)
    (hstep : ∀ a f b, I a → Sound P a → Enabled P a f → c.May s.kernel f → f.apply P a = some b →
      b.Live p ∧ a.Live p → I b) : I s'.kernel := by
  have hkeep := (hs.step hst).2.keep (I := fun a => (c = .threadCreate → a.Live p) ∧
    (a.Live p → I a)) ⟨fun _ => hl, fun _ => h0⟩ hs.sound ?_
  · exact hkeep.2 hl'
  intro a f d ha hsa he hm hd
  have htab := (Effect.spec hsa he hd).table
  constructor
  · intro hc
    refine Effect.live_mono hsa he hd (fun t => ?_) (ha.1 hc)
    rintro rfl
    obtain ⟨th, hth, -⟩ := hm
    exact absurd (hth.symm.trans hc) (by simp)
  · intro hld
    -- nobody but a creation makes a thread
    have hla : a.Live p := by
      by_cases hc : c = .threadCreate
      · exact ha.1 hc
      · cases f with
        | create => exact absurd hm hc
        | reap t => exact ((htab.live p).mp hld).1
        | _ => rwa [Kernel.Live, ← htab]
    exact hstep a f d (ha.2 hla) hsa he hm hd ⟨hld, hla⟩

/-- A call keeps the registers of every other thread but for the patch of a firing vector and what
is pushed. -/
theorem call_kept (hs : SysSound P s) (hst : s.step P (.call c) = some s') (hpa : p ≠ s.active)
    (hl : s.kernel.Live p) (hl' : s'.kernel.Live p) :
    (∃ th cls st b, c = .threadPushState th cls st b ∧ Accepts s.kernel th st ∧
        p = tcbGet s.kernel th ∧ s'.threadRegs p = pushRegs (s.threadRegs p) cls b) ∨
      (∀ th cls st b, c = .threadPushState th cls st b → Accepts s.kernel th st →
        p ≠ tcbGet s.kernel th) ∧ s.RegsPatched s' (fun w => s.Fires w (.call c)) p := by
  obtain ⟨r, hb, hact, -⟩ := call_shape hs hst
  rw [Sys.RegsPatched, Sys.threadRegs_of_ne hpa, Sys.threadRegs_of_ne (hact.symm ▸ hpa)]
  by_cases hpush : ∃ th cls st b, c = .threadPushState th cls st b
  · obtain ⟨th, cls, st, b, rfl⟩ := hpush
    have hk : (apilogicThreadPushState s.kernel th cls st b).2 = s'.kernel :=
      congrArg Prod.snd (Option.some.inj hb)
    by_cases ha : Accepts s.kernel th st ∧ p = tcbGet s.kernel th
    · obtain ⟨ha, hpt⟩ := ha
      rw [push_accepted ha] at hk
      rw [← hk, hpt, Kernel.updTcb_self]
      exact Or.inl ⟨th, cls, st, b, rfl, ha, rfl, rfl⟩
    · refine Or.inr ⟨?_, Or.inl ?_⟩
      · rintro _ _ _ _ ⟨⟩ h1 h2
        exact ha ⟨h1, h2⟩
      · rw [← hk]
        by_cases hacc : Accepts s.kernel th st
        · rw [push_accepted hacc, Kernel.updTcb_of_ne _ _ _ _ fun hpt => ha ⟨hacc, hpt⟩]
        · rw [push_refused hacc]
  · refine Or.inr ⟨fun th cls st b hc => absurd ⟨th, cls, st, b, hc⟩ hpush, ?_⟩
    refine call_block (I := RegsKept s.kernel (fun w => s.Fires w (.call c)) p) hs hst hl hl'
      (Or.inl rfl) fun a f d ha hsa he hm hd hld => ?_
    refine ha.effect ((regs_effect hsa he hd hld ?_ ?_ ?_).imp_left And.left)
    · rintro v j rfl
      exact ⟨fires_vector hm.1, hm.2⟩
    · rintro v j rfl
      exact ⟨fires_vector hm.1, hm.2⟩
    · rintro t r iv sv er rfl
      obtain ⟨th, cls, st, b, hc, -⟩ := hm
      exact absurd ⟨th, cls, st, b, hc⟩ hpush

theorem call_rax (hs : SysSound P s) (hst : s.step P (.call c) = some s') (hpa : p ≠ s.active)
    (hl : s.kernel.Live p) (hl' : s'.kernel.Live p) :
    (s'.threadRegs p).rax = (s.threadRegs p).rax ∨
      Patched s.kernel (fun w => s.Fires w (.call c)) p (s'.threadRegs p).rax ∨
      ∃ th cls st b, c = .threadPushState th cls st b ∧ Accepts s.kernel th st ∧
        p = tcbGet s.kernel th ∧ cls &&& pinionThreadStateClassRegsCaller ≠ 0 ∧
        (s'.threadRegs p).rax = b.rax := by
  rcases call_kept hs hst hpa hl hl' with ⟨th, cls, st, b, rfl, ha, hpt, hregs⟩ | ⟨-, hregs⟩
  · have hget := pushRegs_get (s.threadRegs p) cls b .rax
    rw [hregs]
    by_cases hcls : cls &&& pinionThreadStateClassRegsCaller ≠ 0
    · exact Or.inr (Or.inr ⟨th, cls, st, b, rfl, ha, hpt, hcls, hget.trans (if_pos hcls)⟩)
    · exact Or.inl (hget.trans (if_neg hcls))
  · exact hregs.rax.imp_right Or.inl

end Call

section Answer

/-- The taps of the threads carry no bit that set_tap refuses but the fired flag. -/
def TapsLow (k : Kernel) : Prop := ∀ p, k.Live p → ∀ i, (k.tcb p).tap i &&& 0x4000 = 0

/-- A new thread gets a block without the refused bit in its taps, and nobody pushes a rax that
set_tap refuses on a thread inside wait. -/
structure Sys.Proper (P : Platform) (s : Sys) (e : Event) : Prop where
  create : e = .call .threadCreate → (apilogicThreadCreate P.pages s.kernel).1 ≠ 0 →
    ∀ i, (s.kernel.tcb (tcbAlloc P.pages s.kernel).1).tap i &&& 0x4000 = 0
  push : ∀ th cls st b, e = .call (.threadPushState th cls st b) → Accepts s.kernel th st →
    (s.pos (tcbGet s.kernel th)).InWait → cls &&& pinionThreadStateClassRegsIp = 0 →
      cls &&& pinionThreadStateClassRegsCaller ≠ 0 → Settable (b.rax.setWidth 32)

variable {v : BitVec 16} {i : Fin 4}

theorem flagged_bit (h : v &&& 0x4000 = 0) : (v ||| 0x8000) &&& 0x4000 = 0 := by
  rw [BitVec.and_comm, BitVec.and_or_distrib_left, BitVec.and_comm _ v, h]
  decide

theorem cleared_bit (h : v &&& 0x4000 = 0) : v &&& ~~~0x8000 &&& 0x4000 = 0 := by
  rw [BitVec.and_assoc, BitVec.and_comm _ (0x4000 : BitVec 16), ← BitVec.and_assoc, h]
  rfl

theorem refused_bit (h : v &&& 0xC000 = 0) : v &&& 0x4000 = 0 := by
  have hlow : v &&& 0xC000 &&& 0x4000 = 0 := by
    rw [h]
    rfl
  rwa [BitVec.and_assoc] at hlow

/-- A tap that is set gets a vector that set_tap accepts. -/
theorem rewired_set (h : s.SetsTap p i e) :
    ((e.rewired s.kernel).tcb p).tap i &&& 0xC000 = 0 := by
  cases e with
  | call c =>
    cases c with
    | interruptSetTap index vec =>
      obtain ⟨hp, hi, hv⟩ := h
      have hlt : index.toNat < 4 := hi ▸ i.isLt
      have hk₁ : (Event.call (.interruptSetTap index vec)).rewired s.kernel =
          retap s.kernel (tapIndex index hlt) (vec.setWidth 16) := rewired_accepted hlt hv
      have hidx : i = tapIndex index hlt := Fin.ext hi.symm
      rw [hk₁, retap_tap, if_pos (show p = s.kernel.activeTcb from hp), hidx,
        Function.update_self]
      exact accepted_low hv
    | _ => exact h.elim
  | _ => exact h.elim

theorem TapsLow.step (h : TapsLow s.kernel) (hs : SysSound P s) (hok : s.Proper P e)
    (hst : s.step P e = some s') : TapsLow s'.kernel := by
  intro p hl i
  have hold : (s.kernel.tcb p).tap i &&& 0x4000 = 0 := by
    by_cases hc : e = .call .threadCreate
    · obtain ⟨run, free, hcoh⟩ := hs.sound
      obtain ⟨t, free', -, hcr⟩ := hcoh.create
      subst hc
      obtain ⟨-, -, r, hb⟩ := hs.step_call hst
      have hk : (apilogicThreadCreate P.pages s.kernel).2 = s'.kernel :=
        congrArg Prod.snd (Option.some.inj hb)
      rcases (hcr.live p).mp (hk ▸ hl) with hlive | ⟨hi, rfl⟩
      · exact h p hlive i
      · rw [hcr.alloc]
        exact hok.create rfl hi i
    · exact h p (step_live hs hst hc hl) i
  have hwired : ((e.rewired s.kernel).tcb p).tap i &&& 0x4000 = 0 := by
    by_cases hset : s.SetsTap p i e
    · exact refused_bit (rewired_set hset)
    · rw [rewired_tap hset]
      split_ifs
      · exact cleared_bit hold
      · exact hold
  rw [tap_step hs hst]
  split_ifs
  · exact flagged_bit hwired
  · exact hwired

/-- The answer of the body of wait. -/
theorem wait_settable (h : TapsLow k) (hl : k.Live k.activeTcb) :
    Settable (apilogicInterruptWait k).1 := by
  unfold apilogicInterruptWait
  dsimp only
  cases slots.find? fun i => (k.tcb k.activeTcb).tap i &&& 0x8000 ≠ 0 with
  | none => exact (by decide : Settable 0)
  | some i =>
    apply settable_setWidth.mpr
    rw [BitVec.and_assoc]
    exact h _ hl i

theorem settable_rax {w : BitVec 32} (h : Settable w) :
    Settable ((w.setWidth 64).setWidth 32) := by
  rwa [BitVec.setWidth_setWidth_of_le _ (by decide), BitVec.setWidth_eq]

theorem Patched.settable {fires : BitVec 16 → Prop} {w : Word} (h : Patched k fires p w) :
    Settable (w.setWidth 32) := by
  obtain ⟨q, -, -, -, rfl⟩ := h
  cases q <;> decide

/-- Whoever stands inside wait has something in rax that set_tap accepts. -/
structure Answered (P : Platform) (s : Sys) : Prop where
  sound : SysSound P s
  low : TapsLow s.kernel
  rax : ∀ p, s.kernel.Live p → (s.pos p).InWait → Settable ((s.threadRegs p).rax.setWidth 32)

theorem Answered.step (h : Answered P s) (hok : s.Proper P e) (hst : s.step P e = some s') :
    Answered P s' := by
  refine ⟨(h.sound.step hst).1, h.low.step h.sound hok hst, fun p hl hw => ?_⟩
  cases e with
  | run regs =>
    obtain ⟨hp, rfl⟩ := Sys.run_cases hst
    have hne : p ≠ s.active := by
      rintro rfl
      exact hw.ne_user hp
    have hsame : ({ s with cpu := regs } : Sys).threadRegs p = s.threadRegs p :=
      (if_neg hne).trans (if_neg hne).symm
    rw [hsame]
    exact h.rax p hl hw
  | ret =>
    obtain ⟨e, -, rfl⟩ := Sys.ret_cases hst
    have hne : p ≠ s.active := by
      rintro rfl
      exact hw.ne_user (Function.update_self ..)
    have hpos : (s.setPos s.active .user).pos p = s.pos p := Function.update_of_ne hne ..
    exact h.rax p hl (hpos ▸ hw)
  | interrupt v er cr2 =>
    have hlive := step_live h.sound hst (by simp) hl
    obtain ⟨-, hpos, hrax⟩ := interrupt_rax h.sound hst hlive
    rcases hrax with hrax | hrax
    · rw [hrax]
      exact h.rax p hlive (hpos ▸ hw)
    · exact hrax.settable
  | yield =>
    have hlive := step_live h.sound hst (by simp) hl
    obtain ⟨-, hpos, hrax⟩ := yield_rax h.sound hst hlive
    rw [hrax]
    refine h.rax p hlive ?_
    rcases hpos with hpos | ⟨e, -, htail, hret⟩
    · exact hpos ▸ hw
    · rw [hret] at hw
      rw [htail]
      rcases hw with hw | hw
      · cases hw
      · exact Or.inl (congrArg Pos.tail (Pos.ret.inj hw))
  | call c =>
    rcases call_inWait h.sound hst hw hl with ⟨hpa, rfl, hrax⟩ | ⟨hpa, hin, hlive, hpush⟩
    · obtain ⟨-, -, hact, -⟩ := call_shape h.sound hst
      rw [Sys.threadRegs_of_eq (hpa.trans hact.symm), hrax]
      exact settable_rax (wait_settable h.low (h.sound.step_call hst).1.live)
    · rcases call_rax h.sound hst hpa hlive hl with hrax | hrax |
        ⟨th, cls, st, b, rfl, ha, hpt, hcls, hrax⟩
      · rw [hrax]
        exact h.rax p hlive hin
      · exact hrax.settable
      · rw [hrax]
        exact hok.push th cls st b rfl ha (hpt ▸ hin) (hpush th cls st b rfl ha hpt) hcls

theorem Booted.tapsLow (h : Booted P k)
    (hb : ∀ i, (k.tcb k.activeTcb).tap i &&& 0x4000 = 0) : TapsLow k := by
  intro p hl i
  rw [(h.live p).mp hl]
  exact hb i

theorem Boot.answered (b : Boot P)
    (hb : ∀ i, (b.sys.kernel.tcb b.sys.active).tap i &&& 0x4000 = 0) : Answered P b.sys := by
  refine ⟨b.sys_sound, ?_, ?_⟩
  · have h : Booted P b.sys.kernel := b.init_booted
    have h2 := h.tapsLow
    generalize b.sys = s at *
    exact h2 hb
  · intro p _ hw
    have huser : b.sys.pos p = .user := rfl
    rw [huser] at hw
    exact absurd rfl hw.ne_user

/-- Between a set_tap that is accepted and the next one, get_tap gives the vector back exactly as
long as it has not fired since the set_tap or the last reset of the tap. A thread that returns from
wait holds a vector that set_tap accepts, if no block comes with the refused bit in its taps and
nobody pushes such a rax. -/
theorem taps_read_back (b : Boot P) :
    (∀ s s₀ index vec w, ∀ h : index.toNat < 4, Reach b s →
      (apilogicInterruptSetTap s.kernel index vec).1 = true →
      s.step P (.call (.interruptSetTap index vec)) = some s₀ →
      Run (Watch.step P s.active (tapIndex index h)) (Watch.Keeps s.active (tapIndex index h))
        (Watch.start s s₀ index vec h) w → w.sys.active = s.active →
      (apilogicInterruptGetTap w.sys.kernel index = vec ↔
        w.rung = false ∧ vec.toNat < 2 ^ 16) ∧
      ((apilogicInterruptSetTap w.sys.kernel index
        (apilogicInterruptGetTap w.sys.kernel index)).1 = true ↔ w.rung = false)) ∧
    ((∀ i, (b.sys.kernel.tcb b.sys.active).tap i &&& 0x4000 = 0) →
      ∀ s, Run (Sys.step P) (Sys.Proper P) b.sys s → s.pos s.active = .ret .interruptWait →
        ∀ k index, index.toNat < 4 →
          (apilogicInterruptSetTap k index (s.cpu.rax.setWidth 32)).1 = true) := by
  constructor
  · intro s s₀ index vec w h hr hset hst hw ha
    obtain ⟨-, hv⟩ := settable_of_setTap hset
    have hholds := (Watch.start_holds hr.sound h hv hst).run (accepted_low hv) hw
    rw [← ha] at hholds
    rw [setTap_iff _ h]
    exact hholds.read h hv
  · intro hb s hr hret k index h
    have hans : Answered P s := hr.invariant (b.answered hb) fun _ _ _ ha hok hst => ha.step hok hst
    rw [setTap_iff _ h, ← Sys.threadRegs_of_eq (s := s) rfl]
    refine hans.rax _ ?_ (Or.inr hret)
    obtain ⟨run, free, hc⟩ := hans.sound.sound
    refine (hc.active.resolve_left hans.sound.active).1.resolve_right fun hi => ?_
    have huser := hans.sound.idle
    rw [← hi] at huser
    exact absurd (hret.symm.trans huser) (by simp)

theorem tapped_isSome :
    (lowBoot.sys.step lowPlatform (.call (.interruptSetTap 0 0x80))).isSome = true := by
  decide +kernel

/-- Thread 1 has set its first tap to page faults. -/
def tapped : Watch :=
  .start lowBoot.sys ((lowBoot.sys.step lowPlatform (.call (.interruptSetTap 0 0x80))).get
    tapped_isSome) 0 0x80 (by decide)

/-- The guard of Sys.Proper for events without a push. -/
def properTest (P : Platform) (s : Sys) : Event → Bool
  | .call .threadCreate => decide (∀ i, (s.kernel.tcb (tcbAlloc P.pages s.kernel).1).tap i &&&
      0x4000 = 0)
  | .call (.threadPushState ..) => false
  | _ => true

theorem proper_of_test (h : properTest P s e = true) : s.Proper P e where
  create he _ := by
    subst he
    exact of_decide_eq_true h
  push th cls st b he := by
    subst he
    cases h

/-- Thread 2 faults. Thread 1 fetches the report and resets the tap, and reads it as it was set; if
it waits for the fault, it comes back with the vector. -/
theorem taps_read_back_reset :
    (∃ w : Watch, w.sys.active = lowBoot.sys.active ∧ w.rung = false ∧
      apilogicInterruptGetTap w.sys.kernel 0 = 0x80) ∧
    ∃ s : Sys, s.pos s.active = .ret .interruptWait ∧ s.cpu.rax = 0x80 ∧
      (apilogicInterruptSetTap s.kernel 0 (s.cpu.rax.setWidth 32)).1 = true := by
  constructor
  · obtain ⟨w, hw, htest⟩ := Run.exists_of_guarded
      (Watch.step lowPlatform lowBoot.sys.active (tapIndex 0 (by decide)))
      (fun w e => ¬ w.sys.SetsTap lowBoot.sys.active (tapIndex 0 (by decide)) e) tapped
      [.call .threadCreate, .yield, .ret, .call (.threadResume 2), .yield, .interrupt 14 0 0, .ret,
        .call (.faultGetPagefault 1), .call (.interruptReset 0x80)]
      (fun w => decide (w.sys.active = lowBoot.sys.active ∧ w.rung = false)) (by decide +kernel)
    obtain ⟨ha, hr⟩ := of_decide_eq_true htest
    exact ⟨w, ha, hr, ((taps_read_back lowBoot).1 lowBoot.sys _ 0 0x80 w (by decide) .refl
      (by decide +kernel) (Option.eq_some_of_isSome tapped_isSome) hw ha).1.mpr ⟨hr, by decide⟩⟩
  · obtain ⟨s, hs, htest⟩ := Run.exists_of_guarded (Sys.step lowPlatform)
      (fun s e => properTest lowPlatform s e = true) lowBoot.sys
      [.call (.interruptSetTap 0 0x80), .call .threadCreate, .yield, .ret, .call (.threadResume 2),
        .yield, .interrupt 32 0 0, .ret, .call .interruptWait, .yield, .interrupt 14 0 0]
      (fun s => decide (s.pos s.active = .ret .interruptWait ∧ s.cpu.rax = 0x80))
      (by decide +kernel)
    obtain ⟨hret, hrax⟩ := of_decide_eq_true htest
    exact ⟨s, hret, hrax, (taps_read_back lowBoot).2 (by decide +kernel) s
      (hs.mono fun _ _ => proper_of_test) hret s.kernel 0 (by decide)⟩

/-- Thread 2 faults. Thread 1 reads its tap with the flag, and may not set it to what it has
read. -/
theorem fired_tap_reads_flag : ¬ ∀ (P : Platform) (b : Boot P) (s s₀ : Sys) (index vec : BitVec 32)
    (w : Watch) (h : index.toNat < 4), Reach b s →
      (apilogicInterruptSetTap s.kernel index vec).1 = true →
      s.step P (.call (.interruptSetTap index vec)) = some s₀ →
      Run (Watch.step P s.active (tapIndex index h)) (Watch.Keeps s.active (tapIndex index h))
        (Watch.start s s₀ index vec h) w → w.sys.active = s.active →
      apilogicInterruptGetTap w.sys.kernel index = vec ∧
        (apilogicInterruptSetTap w.sys.kernel index
          (apilogicInterruptGetTap w.sys.kernel index)).1 = true := by
  intro hall
  obtain ⟨w, hw, htest⟩ := Run.exists_of_guarded
    (Watch.step lowPlatform lowBoot.sys.active (tapIndex 0 (by decide)))
    (fun w e => ¬ w.sys.SetsTap lowBoot.sys.active (tapIndex 0 (by decide)) e) tapped
    [.call .threadCreate, .yield, .ret, .call (.threadResume 2), .yield, .interrupt 14 0 0, .ret]
    (fun w => decide (w.sys.active = lowBoot.sys.active ∧
      apilogicInterruptGetTap w.sys.kernel 0 = 0x8080)) (by decide +kernel)
  obtain ⟨ha, hread⟩ := of_decide_eq_true htest
  have hclaim := (hall lowPlatform lowBoot lowBoot.sys _ 0 0x80 w (by decide) .refl
    (by decide +kernel) (Option.eq_some_of_isSome tapped_isSome) hw ha).1
  rw [hread] at hclaim
  exact absurd hclaim (by decide)

end Answer
end Pinion64
