import Pinion64.Suspension

/-! The answers of wait: which vectors have fired on the taps of a thread, and what its caller
finds in rax. -/
namespace Pinion64
open Intrusive Transition

section Definitions

/-- The block becomes that of a new thread. -/
def Sys.Creates (P : Platform) (s : Sys) (t : Ptr) : Event → Prop
  | .call .threadCreate =>
    (apilogicThreadCreate P.pages s.kernel).1 ≠ 0 ∧ (tcbAlloc P.pages s.kernel).1 = t
  | _ => False

/-- The vector fires and sets the flag of a tap of the thread. -/
def Sys.Sounds (s : Sys) (e : Event) (t : Ptr) (v : BitVec 16) : Prop :=
  s.Fires v e ∧ ∃ i, (e.rewired s.kernel).Rings v t i

instance decCallCreates (P : Platform) (s : Sys) (t : Ptr) :
    (c : Call) → Decidable (s.Creates P t (.call c))
  | .threadCreate => inferInstanceAs (Decidable (_ ∧ _))
  | .threadYield | .threadPause _ | .threadResume _ | .threadExit | .threadReap _
  | .threadPullState .. | .threadPushState .. | .interruptSetTap _ _ | .interruptGetTap _
  | .interruptReset _ | .interruptWait | .threadGet _ | .faultGetPagefault _
  | .faultGetMiscfault _ | .faultGetZombie _ | .pageSet .. | .pageGet _ => instDecidableFalse

instance decCreates (P : Platform) (s : Sys) (t : Ptr) :
    (e : Event) → Decidable (s.Creates P t e)
  | .call c => decCallCreates P s t c
  | .interrupt .. | .yield | .run _ | .ret => instDecidableFalse

instance decSounds (s : Sys) (e : Event) (t : Ptr) (v : BitVec 16) :
    Decidable (s.Sounds e t v) :=
  inferInstanceAs (Decidable (_ ∧ ∃ _ : Fin 4, _))

/-- The running system with the vectors that have fired on a tap of one thread since it was
made. -/
structure Hearing where
  sys : Sys
  heard : BitVec 16 → Bool

namespace Hearing

def start (s : Sys) : Hearing := ⟨s, fun _ => false⟩

def step (P : Platform) (t : Ptr) (w : Hearing) (e : Event) : Option Hearing :=
  (w.sys.step P e).map fun s => {
    sys := s
    heard := fun v =>
      decide (w.sys.Sounds e t v ∨ w.heard v = true ∧ ¬ w.sys.Creates P t e) }

end Hearing

/-- The timer does not strike the thread between the body of its entry and the trap, its block
comes without the upper bits in its taps, and nobody pushes its rax while it stands inside wait and
is suspended there. -/
structure Sys.Genuine (P : Platform) (t : Ptr) (s : Sys) (e : Event) : Prop where
  tick : s.active = t → ¬ s.Preempts e
  create : s.Creates P t e → ∀ i, (s.kernel.tcb t).tap i &&& 0xC000 = 0
  push : ∀ th cls st b, e = .call (.threadPushState th cls st b) → Accepts s.kernel th st →
    tcbGet s.kernel th = t → (s.pos t).InWait → s.kernel.state t = tcbStateSuspended →
    cls &&& pinionThreadStateClassRegsIp = 0 → cls &&& pinionThreadStateClassRegsCaller = 0

end Definitions

variable {P : Platform} {k k' : Kernel} {s s' : Sys} {e : Event} {f : Effect} {c : Call}
  {t : Ptr} {v : BitVec 16} {i : Fin 4} {w w' : Hearing}

section Bits

theorem flagged_value (h : v &&& 0x4000 = 0) : (v ||| 0x8000) &&& ~~~0x8000 = v &&& 0x3FFF := by
  have hlow : v &&& 0x7FFF = v &&& 0x3FFF := by
    rw [show (0x7FFF : BitVec 16) = 0x4000 ||| 0x3FFF by decide, BitVec.and_or_distrib_left, h]
    exact BitVec.zero_or
  rw [BitVec.and_comm, BitVec.and_or_distrib_left, BitVec.and_comm _ v,
    show (~~~0x8000 : BitVec 16) &&& 0x8000 = 0#16 by decide, BitVec.or_zero]
  exact hlow

theorem cleared_flag (v : BitVec 16) : v &&& ~~~0x8000 &&& 0x8000 = 0 := by
  rw [BitVec.and_assoc, show (~~~0x8000 : BitVec 16) &&& 0x8000 = 0#16 by decide, BitVec.and_zero]
  rfl

theorem widened (v : BitVec 16) : ((v.setWidth 32 : BitVec 32).setWidth 64 : Word) = v.setWidth 64 := by
  apply BitVec.eq_of_toNat_eq
  rw [BitVec.toNat_setWidth, BitVec.toNat_setWidth, BitVec.toNat_setWidth]
  have hlt := v.isLt
  omega

end Bits

section Taps

/-- Who is a thread after an event was one before or has just been created. -/
theorem live_before (hs : SysSound P s) (hst : s.step P e = some s') (hl : s'.kernel.Live t)
    (hc : ¬ s.Creates P t e) : s.kernel.Live t := by
  by_cases he : e = .call .threadCreate
  · subst he
    obtain ⟨-, -, r, hb⟩ := hs.step_call hst
    have hk : (apilogicThreadCreate P.pages s.kernel).2 = s'.kernel :=
      congrArg Prod.snd (Option.some.inj hb)
    obtain ⟨run, free, hcoh⟩ := hs.sound
    obtain ⟨y, free', -, hcr⟩ := hcoh.create
    refine ((hcr.live t).mp (hk ▸ hl)).resolve_right ?_
    rintro ⟨hi, rfl⟩
    exact hc ⟨hi, hcr.alloc.symm⟩
  · exact step_live hs hst he hl

/-- The taps of the thread carry a flag only for a vector that has fired on them. -/
structure Hearing.Flags (t : Ptr) (w : Hearing) (k : Kernel) : Prop where
  low : ∀ i, (k.tcb t).tap i &&& 0x4000 = 0
  heard : ∀ i, (k.tcb t).tap i &&& 0x8000 ≠ 0 →
    w.heard ((k.tcb t).tap i &&& ~~~0x8000) = true

theorem Hearing.Flags.step (h : w.sys.kernel.Live t → w.Flags t w.sys.kernel)
    (hs : SysSound P w.sys) (hok : w.sys.Genuine P t e) (hw : w.step P t e = some w')
    (hl : w'.sys.kernel.Live t) : w'.Flags t w'.sys.kernel := by
  obtain ⟨s', hst, rfl⟩ := Option.map_eq_some_iff.mp hw
  -- the taps before the event, those of a new thread among them
  have hold : ∀ i, (w.sys.kernel.tcb t).tap i &&& 0x4000 = 0 ∧
      ((w.sys.kernel.tcb t).tap i &&& 0x8000 ≠ 0 →
        w.heard ((w.sys.kernel.tcb t).tap i &&& ~~~0x8000) = true ∧ ¬ w.sys.Creates P t e) := by
    intro i
    by_cases hc : w.sys.Creates P t e
    · have hclear := hok.create hc i
      exact ⟨refused_bit hclear, fun hf => absurd (unflagged hclear) hf⟩
    · have hflags := h (live_before hs hst hl hc)
      exact ⟨hflags.low i, fun hf => ⟨hflags.heard i hf, hc⟩⟩
  have hwired : ∀ i, ((e.rewired w.sys.kernel).tcb t).tap i &&& 0x4000 = 0 ∧
      (((e.rewired w.sys.kernel).tcb t).tap i &&& 0x8000 ≠ 0 →
        w.heard (((e.rewired w.sys.kernel).tcb t).tap i &&& ~~~0x8000) = true ∧
          ¬ w.sys.Creates P t e) := by
    intro i
    by_cases hset : w.sys.SetsTap t i e
    · have hclear := rewired_set hset
      exact ⟨refused_bit hclear, fun hf => absurd (unflagged hclear) hf⟩
    · rw [rewired_tap hset]
      split_ifs
      · exact ⟨cleared_bit (hold i).1, fun hf => absurd (cleared_flag _) hf⟩
      · exact hold i
  constructor
  · intro i
    rw [tap_step hs hst]
    split_ifs
    · exact flagged_bit (hwired i).1
    · exact (hwired i).1
  · intro i
    rw [tap_step hs hst]
    simp only [decide_eq_true_eq]
    split_ifs with hr
    · intro _
      obtain ⟨q, hq, hring⟩ := hr
      left
      rw [flagged_value (hwired i).1, Tcb.tapOf_some hring.2]
      exact ⟨hq, i, hring⟩
    · exact fun hf => Or.inr ((hwired i).2 hf)

end Taps

section Waits

/-- The thread waits, paused or not. -/
def Kernel.Listens (k : Kernel) (t : Ptr) : Prop :=
  k.state t = tcbStateWaiting ∨ k.state t = tcbStateSuspendedWaiting

instance (k : Kernel) (t : Ptr) : Decidable (k.Listens t) :=
  inferInstanceAs (Decidable (_ ∨ _))

theorem Kernel.Listens.effect (h : k.Listens t) (hs : Sound P k) (he : Enabled P k f)
    (hk : f.apply P k = some k') (hl : k'.Live t ∧ k.Live t) (hq : f ≠ .ready t)
    (hw : ∀ v j, f ≠ .wake v t j ∧ f ≠ .unwait v t j) : k'.Listens t := by
  have hst := (Effect.spec hs he hk).state t (Or.inl hl)
  have hne : k.state t ≠ tcbStateQueued ∧ k.state t ≠ tcbStateRunning := by
    rcases h with h | h <;>
    · rw [h]
      decide
  rw [Kernel.Listens, hst]
  cases f with
  | ready y => rwa [Effect.stateOf, if_neg fun hy => hq (congrArg _ hy.symm)]
  | dispatch y =>
    have hy : t ≠ y := by
      rintro rfl
      obtain ⟨-, h0, rfl⟩ := he
      obtain ⟨run, free, hc⟩ := hs
      obtain ⟨l, rfl, -⟩ := hc.fifo.1.exists_cons h0
      exact hne.1 ((hc.queued _).mp (List.mem_cons_self ..)).2
    rwa [Effect.stateOf, if_neg hy]
  | block y =>
    have hy : t ≠ y := by
      rintro rfl
      exact hne.1 he.2
    rwa [Effect.stateOf, if_neg hy]
  | shift y z =>
    rw [Effect.stateOf]
    split_ifs with hy
    · subst hy
      rcases he.2 with ⟨-, rfl⟩ | ⟨-, rfl⟩ | ⟨hr, -⟩ | ⟨hr, -⟩
      · exact Or.inr rfl
      · exact Or.inl rfl
      · exact absurd hr hne.2
      · exact absurd hr hne.2
    · exact h
  | wake v y j =>
    have hy : t ≠ y := by
      rintro rfl
      exact (hw v j).1 rfl
    rwa [Effect.stateOf, if_neg hy]
  | unwait v y j =>
    have hy : t ≠ y := by
      rintro rfl
      exact (hw v j).2 rfl
    rwa [Effect.stateOf, if_neg hy]
  | _ => exact h

/-- A thread that has waited goes on to wait, or has got its answer. -/
def Pends (k₀ : Kernel) (fires : BitVec 16 → Prop) (t : Ptr) (k : Kernel) : Prop :=
  k.Listens t ∨ Patched k₀ fires t (k.tcb t).regs.rax

theorem Pends.effect {k₀ : Kernel} {fires : BitVec 16 → Prop} (h : Pends k₀ fires t k)
    (hs : Sound P k) (he : Enabled P k f) (hk : f.apply P k = some k')
    (hl : k'.Live t ∧ k.Live t) (hq : f ≠ .ready t)
    (hr : (k'.tcb t).regs.rax = (k.tcb t).regs.rax ∧
        (∀ v j, f ≠ .wake v t j ∧ f ≠ .unwait v t j) ∨
      Patched k₀ fires t (k'.tcb t).regs.rax) : Pends k₀ fires t k' := by
  rcases hr with ⟨hsame, hno⟩ | hp
  · rcases h with h | h
    · exact Or.inl (h.effect hs he hk hl hq hno)
    · refine Or.inr ?_
      rw [hsame]
      exact h
  · exact Or.inr hp

theorem handler_pends {iv : BitVec 32} {rdi : Word} (hs : Sound P k)
    (h : Effects P (HandlerMay k iv rdi) k k') (hl : k.Live t) (hw : k.Listens t)
    (hq : t = k.activeTcb → ¬ Requeues k iv rdi) :
    Pends k (fun v => ∃ q, faultQueue iv = some q ∧ v = q.vector) t k' := by
  have hkeep := h.keep (I := fun a => a.Live t ∧
    Pends k (fun v => ∃ q, faultQueue iv = some q ∧ v = q.vector) t a)
    ⟨hl, Or.inl hw⟩ hs fun a f b ha hsa he hm hb => ?_
  · exact hkeep.2
  have hlive : b.Live t := by
    refine Effect.live_mono hsa he hb (fun x => ?_) ha.1
    rintro rfl
    exact hm.elim
  refine ⟨hlive, ha.2.effect hsa he hb ⟨hlive, ha.1⟩ ?_
    (rax_effect hsa he hb ⟨hlive, ha.1⟩ ?_ ?_ ?_)⟩
  · rintro rfl
    exact hq hm.1 hm.2
  · rintro v j rfl
    obtain ⟨⟨q, hq, rfl⟩, hf, hw⟩ := hm
    exact ⟨⟨q, ⟨q, hq, rfl⟩, rfl⟩, hf, hw⟩
  · rintro v j rfl
    obtain ⟨⟨q, hq, rfl⟩, hf, hw⟩ := hm
    exact ⟨⟨q, ⟨q, hq, rfl⟩, rfl⟩, hf, hw⟩
  · rintro y r iv sv er rfl
    exact hm.elim

/-- A trap leaves a thread waiting or answers it, unless it puts the thread itself back on the run
queue. -/
theorem enter_pends (iv : BitVec 32) (error : Word) (hs : Sound P s.kernel) (ha : s.active ≠ 0)
    (hl : s.kernel.Live t) (hw : s.kernel.Listens t)
    (hq : t = s.active → ¬ Requeues s.kernel iv s.cpu.rdi) :
    (s.enter P iv error).kernel.Listens t ∨
      Patched s.kernel (fun v => ∃ q, faultQueue iv = some q ∧ v = q.vector) t
        ((s.enter P iv error).threadRegs t).rax := by
  have he := enter_trapped (P := P) iv error hs ha hl
  have hstate : ∀ p, (saveState s.kernel s.cpu iv error).state p = s.kernel.state p :=
    saveState_state s.kernel s.cpu iv error
  have hpends := handler_pends he.sound he.handler hl (by rwa [Kernel.Listens, hstate])
    fun hact hre => hq hact (by rwa [Requeues, hstate] at hre)
  rw [he.regs]
  exact hpends.imp_right Patched.before

/-- A thread that waits on the core stands before its trap. -/
theorem Kernel.Listens.tail (h : s.kernel.Listens t) (hs : SysSound P s) (hl : s.kernel.Live t)
    (hact : s.active = t) : (∃ x, s.pos s.active = .tail x) ∧
      s.kernel.state s.active ≠ tcbStateRunning := by
  have hne : s.kernel.state s.active ≠ tcbStateRunning := by
    rw [hact]
    rcases h with h | h <;>
    · rw [h]
      decide
  refine ⟨?_, hne⟩
  by_contra hc
  obtain ⟨run, free, hcoh⟩ := hs.sound
  have hidle : s.active ≠ P.idleTcb := hact ▸ hcoh.live_ne_idle hl
  exact hne (hs.runs hidle (not_exists.mp hc))

theorem interrupt_pends (hs : SysSound P s) {iv : BitVec 32} {er cr2 : Word}
    (hst : s.step P (.interrupt iv er cr2) = some s') (hl : s.kernel.Live t)
    (hw : s.kernel.Listens t) (htick : s.active = t → ¬ s.Preempts (.interrupt iv er cr2)) :
    s'.kernel.Listens t ∨
      Patched s.kernel (fun w => s.Fires w (.interrupt iv er cr2)) t (s'.threadRegs t).rax := by
  obtain ⟨hv, x, er', rfl⟩ := Sys.interrupt_cases hst
  refine enter_pends (s := { s with cr2 := x }) iv er' hs.sound hs.active hl hw ?_
  rintro hact (h32 | ⟨h100, -⟩)
  · obtain ⟨hpos, hne⟩ := hw.tail hs hl hact.symm
    exact htick hact.symm ⟨h32, hpos, hne⟩
  · exact hv.ne_yield h100

/-- A yield answers nobody. -/
theorem yield_pends (hs : SysSound P s) (hst : s.step P .yield = some s') (hl : s.kernel.Live t)
    (hw : s.kernel.Listens t) (hin : (s.pos t).InWait) : s'.kernel.Listens t := by
  have hnone : ∀ {w}, ¬ Patched s.kernel (fun v => ∃ q, faultQueue 0x100 = some q ∧ v = q.vector) t
      w := by
    intro w hc
    obtain ⟨q, ⟨q', hq, -⟩, -⟩ := hc
    cases hq
  rcases Sys.yield_cases hst with ⟨hu, -, rfl⟩ | ⟨x, hx, rfl⟩
  · refine (enter_pends 0x100 0 hs.sound hs.active hl hw fun hact => ?_).resolve_right hnone
    rw [hact] at hin
    exact absurd hu hin.ne_user
  · let s₁ : Sys := ({ s with cpu := { s.cpu with rdi := x.yieldCode } } : Sys).setPos s.active
      (.ret x)
    refine (enter_pends (s := s₁) 0x100 0 hs.sound hs.active hl hw ?_).resolve_right hnone
    intro hact
    have hpos : s.pos t = .tail x := (congrArg s.pos hact).trans hx
    have hcode : x.yieldCode = 0 := by
      rw [hpos] at hin
      rcases hin with hin | hin
      · rw [Pos.tail.inj hin]
        rfl
      · cases hin
    rintro (h32 | ⟨-, h0 | hrun⟩)
    · exact absurd h32 (by decide)
    · exact h0 hcode
    · exact (hw.tail hs hl hact.symm).2 hrun

theorem call_pends (hs : SysSound P s) (hst : s.step P (.call c) = some s')
    (hta : t ≠ s.active) (hl : s.kernel.Live t) (hl' : s'.kernel.Live t)
    (hw : s.kernel.Listens t) : s'.kernel.Listens t ∨
      Patched s.kernel (fun w => s.Fires w (.call c)) t (s'.threadRegs t).rax := by
  obtain ⟨r, hb, hact, -⟩ := call_shape hs hst
  rw [Sys.threadRegs_of_ne (hact.symm ▸ hta)]
  by_cases hpush : ∃ th cls st b, c = .threadPushState th cls st b
  · obtain ⟨th, cls, st, b, rfl⟩ := hpush
    have hk : (apilogicThreadPushState s.kernel th cls st b).2 = s'.kernel :=
      congrArg Prod.snd (Option.some.inj hb)
    have hstate : s'.kernel.state t = s.kernel.state t := by
      rw [← hk]
      by_cases ha : Accepts s.kernel th st
      · rw [push_accepted ha]
        exact s.kernel.updTcb_proj (tcbGet s.kernel th) t
          (fun x => { x with regs := pushRegs x.regs cls b }) Tcb.state fun _ => rfl
      · rw [push_refused ha]
    left
    rwa [Kernel.Listens, hstate]
  · refine call_block (I := Pends s.kernel (fun w => s.Fires w (.call c)) t) hs hst hl hl'
      (Or.inl hw) fun a f d ha hsa he hm hd hld => ?_
    refine ha.effect hsa he hd hld ?_ (rax_effect hsa he hd hld ?_ ?_ ?_)
    · rintro rfl
      obtain ⟨th, -, -, hsus⟩ := hm
      rcases hw with hw | hw <;>
      · rw [hw] at hsus
        exact absurd hsus (by decide)
    · rintro v j rfl
      exact ⟨fires_vector hm.1, hm.2⟩
    · rintro v j rfl
      exact ⟨fires_vector hm.1, hm.2⟩
    · rintro y r iv sv er rfl
      obtain ⟨th, cls, st, b, hc, -⟩ := hm
      exact absurd ⟨th, cls, st, b, hc⟩ hpush

end Waits

section Answer

theorem Sys.Creates.dead (h : s.Creates P t e) (hs : SysSound P s) : ¬ s.kernel.Live t := by
  obtain ⟨run, free, hcoh⟩ := hs.sound
  obtain ⟨y, free', -, hcr⟩ := hcoh.create
  cases e with
  | call c =>
    cases c with
    | threadCreate =>
      obtain ⟨-, rfl⟩ := h
      exact hcr.alloc ▸ hcr.dead
    | _ => exact h.elim
  | _ => exact h.elim

/-- The word is a vector that has fired on a tap of the thread. -/
def Hearing.Answers (w : Hearing) (x : Word) : Prop :=
  ∃ v, w.heard v = true ∧ x = v.setWidth 64

theorem Hearing.Answers.later {x : Word} (h : w.Answers x) (hw : w.step P t e = some w')
    (hc : ¬ w.sys.Creates P t e) : w'.Answers x := by
  obtain ⟨s', -, rfl⟩ := Option.map_eq_some_iff.mp hw
  obtain ⟨v, hv, hx⟩ := h
  exact ⟨v, decide_eq_true (Or.inr ⟨hv, hc⟩), hx⟩

/-- The patch of a waiting thread is an answer. -/
theorem Patched.answers {x : Word} (h : Patched w.sys.kernel (fun v => w.sys.Fires v e) t x)
    (hw : w.step P t e = some w') (ht : ∀ c, e = .call c → t ≠ w.sys.active) : w'.Answers x := by
  obtain ⟨s', -, rfl⟩ := Option.map_eq_some_iff.mp hw
  obtain ⟨q, hq, ⟨j, hf⟩, -, hx⟩ := h
  exact ⟨q.vector, decide_eq_true (Or.inl ⟨hq, j, hf.rings ht⟩), hx⟩

/-- Inside wait the thread waits or has its answer. -/
structure Hearing.Hears (P : Platform) (t : Ptr) (w : Hearing) : Prop where
  sound : SysSound P w.sys
  queue : ∀ v, w.heard v = true → ∃ q : TcbQueue, v = q.vector
  flags : w.sys.kernel.Live t → w.Flags t w.sys.kernel
  answer : w.sys.kernel.Live t → (w.sys.pos t).InWait →
    w.sys.kernel.Listens t ∨ w.Answers (w.sys.threadRegs t).rax

namespace Hearing.Hears

/-- The body of wait finds a flag or makes its caller wait. -/
theorem body (h : w.Hears P t) (hl : w.sys.kernel.Live t) (ht : t = w.sys.active) :
    (apilogicInterruptWait w.sys.kernel).2.Listens t ∨
      w.Answers ((apilogicInterruptWait w.sys.kernel).1.setWidth 64) := by
  subst ht
  have hflags := h.flags hl
  simp only [apilogicInterruptWait]
  cases hf : slots.find? fun i => (w.sys.kernel.tcb w.sys.kernel.activeTcb).tap i &&& 0x8000 ≠ 0 with
  | none =>
    left
    rw [Kernel.Listens, Kernel.setState_state,
      if_pos (show w.sys.active = w.sys.kernel.activeTcb from rfl)]
    exact Or.inl rfl
  | some i =>
    right
    have hi : (w.sys.kernel.tcb w.sys.kernel.activeTcb).tap i &&& 0x8000 ≠ 0 := by
      simpa using List.find?_some hf
    exact ⟨_, hflags.heard i hi, widened _⟩

theorem step_answer (h : w.Hears P t) (hok : w.sys.Genuine P t e) (hw : w.step P t e = some w')
    (hl : w'.sys.kernel.Live t) (hin : (w'.sys.pos t).InWait) :
    w'.sys.kernel.Listens t ∨ w'.Answers (w'.sys.threadRegs t).rax := by
  obtain ⟨s', hst, rfl⟩ := Option.map_eq_some_iff.mp hw
  have hno : ∀ {e'}, e = e' → (∀ c, e' ≠ .call c) → ¬ w.sys.Creates P t e := by
    rintro _ rfl hc
    cases e with
    | call c => exact absurd rfl (hc c)
    | _ => exact id
  cases e with
  | run regs =>
    obtain ⟨hp, rfl⟩ := Sys.run_cases hst
    have hne : t ≠ w.sys.active := by
      rintro rfl
      exact hin.ne_user hp
    have hsame : ({ w.sys with cpu := regs } : Sys).threadRegs t = w.sys.threadRegs t :=
      (if_neg hne).trans (if_neg hne).symm
    rw [hsame]
    exact (h.answer hl hin).imp_right fun ha => ha.later hw (hno rfl (by simp))
  | ret =>
    obtain ⟨x, -, rfl⟩ := Sys.ret_cases hst
    have hne : t ≠ w.sys.active := by
      rintro rfl
      exact hin.ne_user (Function.update_self ..)
    have hpos : (w.sys.setPos w.sys.active .user).pos t = w.sys.pos t := Function.update_of_ne hne ..
    exact (h.answer hl (hpos ▸ hin)).imp_right fun ha => ha.later hw (hno rfl (by simp))
  | interrupt iv er cr2 =>
    have hlive := step_live h.sound hst (by simp) hl
    obtain ⟨-, hpos, hrax⟩ := interrupt_rax h.sound hst hlive
    rcases h.answer hlive (hpos ▸ hin) with hwait | hans
    · exact (interrupt_pends h.sound hst hlive hwait hok.tick).imp_right fun hp =>
        hp.answers hw (by simp)
    · right
      rcases hrax with hrax | hp
      · rw [hrax]
        exact hans.later hw (hno rfl (by simp))
      · exact hp.answers hw (by simp)
  | yield =>
    have hlive := step_live h.sound hst (by simp) hl
    obtain ⟨-, hpos, hrax⟩ := yield_rax h.sound hst hlive
    have hbefore : (w.sys.pos t).InWait := by
      rcases hpos with hpos | ⟨x, -, htail, hret⟩
      · exact hpos ▸ hin
      · rw [hret] at hin
        rw [htail]
        rcases hin with hin | hin
        · cases hin
        · exact Or.inl (congrArg Pos.tail (Pos.ret.inj hin))
    rcases h.answer hlive hbefore with hwait | hans
    · exact Or.inl (yield_pends h.sound hst hlive hwait hbefore)
    · right
      rw [hrax]
      exact hans.later hw (hno rfl (by simp))
  | call c =>
    rcases call_inWait h.sound hst hin hl with ⟨hta, rfl, hrax⟩ | ⟨hta, hbefore, hlive, hpush⟩
    · obtain ⟨-, -, hact, -⟩ := call_shape h.sound hst
      obtain ⟨hcall, -, r, hb⟩ := h.sound.step_call hst
      have hk : (apilogicInterruptWait w.sys.kernel).2 = s'.kernel :=
        congrArg Prod.snd (Option.some.inj hb)
      rw [Sys.threadRegs_of_eq (hta.trans hact.symm), hrax]
      refine (h.body (hta ▸ hcall.live) hta).imp (fun hwait => hk ▸ hwait) fun ha => ?_
      exact ha.later hw id
    · have hnc : ¬ w.sys.Creates P t (.call c) := fun hc => hc.dead h.sound hlive
      have hne : ∀ c', Event.call c = .call c' → t ≠ w.sys.active := fun _ _ => hta
      by_cases hwait : w.sys.kernel.Listens t
      · exact (call_pends h.sound hst hta hlive hl hwait).imp_right fun hp => hp.answers hw hne
      · right
        have hans := (h.answer hlive hbefore).resolve_left hwait
        rcases call_rax h.sound hst hta hlive hl with hrax | hp |
          ⟨th, cls, st, b, rfl, hacc, hpt, hcls, -⟩
        · rw [hrax]
          exact hans.later hw hnc
        · exact hp.answers hw hne
        · -- a suspended thread inside wait is not given another rax
          subst hpt
          have hsus : w.sys.kernel.state (tcbGet w.sys.kernel th) = tcbStateSuspended :=
            hacc.2.2.resolve_right fun hc => hwait (Or.inr hc)
          exact absurd (hok.push th cls st b rfl hacc rfl hbefore hsus
            (hpush th cls st b rfl hacc rfl)) hcls

theorem step (h : w.Hears P t) (hok : w.sys.Genuine P t e) (hw : w.step P t e = some w') :
    w'.Hears P t := by
  refine ⟨?_, fun v hv => ?_, Flags.step h.flags h.sound hok hw, h.step_answer hok hw⟩
  · obtain ⟨s', hst, rfl⟩ := Option.map_eq_some_iff.mp hw
    exact (h.sound.step hst).1
  · obtain ⟨s', hst, rfl⟩ := Option.map_eq_some_iff.mp hw
    rcases of_decide_eq_true hv with hs | ⟨ho, -⟩
    · exact Sys.fires_queue hs.1
    · exact h.queue v ho

theorem start (b : Boot P) (hb : ∀ i, (b.sys.kernel.tcb b.sys.active).tap i &&& 0xC000 = 0) :
    (Hearing.start b.sys).Hears P t := by
  have hs := b.sys_sound
  have hbooted : Booted P b.sys.kernel := b.init_booted
  have huser : ∀ p, b.sys.pos p = .user := fun _ => rfl
  generalize b.sys = s at *
  refine ⟨hs, fun v hv => absurd hv (by simp [Hearing.start]), fun hl => ?_, fun _ hin => ?_⟩
  · obtain rfl := (hbooted.live t).mp hl
    exact ⟨fun i => refused_bit (hb i), fun i hf => absurd (unflagged (hb i)) hf⟩
  · exact absurd (huser t) hin.ne_user

/-- Whoever returns from wait has been answered. -/
theorem returned (h : w.Hears P t) (ht : w.sys.active = t)
    (hret : w.sys.pos t = .ret .interruptWait) : w.Answers w.sys.cpu.rax := by
  have hidle : t ≠ P.idleTcb := by
    rintro rfl
    rw [h.sound.idle] at hret
    cases hret
  have hlive : w.sys.kernel.Live t := by
    obtain ⟨run, free, hc⟩ := h.sound.sound
    have hact := (hc.active.resolve_left h.sound.active).1
    rw [← Sys.active, ht] at hact
    exact hact.resolve_right hidle
  rw [← Sys.threadRegs_of_eq (s := w.sys) ht.symm]
  refine (h.answer hlive (Or.inr hret)).resolve_left fun hwait => ?_
  obtain ⟨⟨x, hx⟩, -⟩ := hwait.tail h.sound hlive ht
  rw [ht, hret] at hx
  cases hx

end Hearing.Hears

end Answer
end Pinion64
