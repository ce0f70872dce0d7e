import Pinion64.Api

/-! thread_push_state and thread_pull_state as lenses between the block of a thread and the buffer
of the caller, one for each class of registers. -/
namespace Pinion64

/-- The registers that a buffer and a block share. -/
inductive Reg
  | rip | rsp
  | rbx | rbp | r12 | r13 | r14 | r15
  | rax | rcx | rdx | rdi | rsi | r8 | r9 | r10 | r11
  deriving DecidableEq

namespace Reg

/-- The bit of pinion.h that selects the register alone: instruction pointer, stack pointer, the
other callee-saved registers, the caller-saved ones. -/
def bit : Reg → BitVec 32
  | rip => 0x1
  | rsp => 0x2
  | rbx | rbp | r12 | r13 | r14 | r15 => 0x4
  | rax | rcx | rdx | rdi | rsi | r8 | r9 | r10 | r11 => 0x8

/-- The class under which push_state and pull_state copy the register. -/
def regClass : Reg → BitVec 32
  | rip => pinionThreadStateClassRegsIp
  | rsp => pinionThreadStateClassRegsSp
  | rbx | rbp | r12 | r13 | r14 | r15 => pinionThreadStateClassRegsCallee
  | rax | rcx | rdx | rdi | rsi | r8 | r9 | r10 | r11 => pinionThreadStateClassRegsCaller

end Reg

def Regs.get (r : Regs) : Reg → Word
  | .rip => r.rip
  | .rsp => r.rsp
  | .rbx => r.rbx
  | .rbp => r.rbp
  | .r12 => r.r12
  | .r13 => r.r13
  | .r14 => r.r14
  | .r15 => r.r15
  | .rax => r.rax
  | .rcx => r.rcx
  | .rdx => r.rdx
  | .rdi => r.rdi
  | .rsi => r.rsi
  | .r8 => r.r8
  | .r9 => r.r9
  | .r10 => r.r10
  | .r11 => r.r11

def ThreadState.get (s : ThreadState) : Reg → Word
  | .rip => s.rip
  | .rsp => s.rsp
  | .rbx => s.rbx
  | .rbp => s.rbp
  | .r12 => s.r12
  | .r13 => s.r13
  | .r14 => s.r14
  | .r15 => s.r15
  | .rax => s.rax
  | .rcx => s.rcx
  | .rdx => s.rdx
  | .rdi => s.rdi
  | .rsi => s.rsi
  | .r8 => s.r8
  | .r9 => s.r9
  | .r10 => s.r10
  | .r11 => s.r11

/-- The part of a buffer that no push reads. -/
def ThreadState.system (s : ThreadState) : Word × Word × Word × Word × Word :=
  (s.fs, s.gs, s.cs, s.ss, s.ds)

/-- The part of the registers that no push writes. -/
def Regs.system (r : Regs) : Word × Word × Word := (r.cs, r.rflags, r.ss)

theorem Regs.ext_get {r r' : Regs} (h : ∀ x, r'.get x = r.get x) (hs : r'.system = r.system) :
    r' = r := by
  have hrip := h .rip
  have hrsp := h .rsp
  have hrbx := h .rbx
  have hrbp := h .rbp
  have hr12 := h .r12
  have hr13 := h .r13
  have hr14 := h .r14
  have hr15 := h .r15
  have hrax := h .rax
  have hrcx := h .rcx
  have hrdx := h .rdx
  have hrdi := h .rdi
  have hrsi := h .rsi
  have hr8 := h .r8
  have hr9 := h .r9
  have hr10 := h .r10
  have hr11 := h .r11
  simp only [Regs.system, Prod.mk.injEq] at hs
  obtain ⟨hcs, hrflags, hss⟩ := hs
  cases r
  cases r'
  simp only [Regs.get] at *
  simp only [*]

section Copy

/-- One class of registers copied, or not. -/
def copied (cls mask : BitVec 32) (x : Reg) (new old : Word) : Word :=
  if mask &&& cls ≠ 0 then if x.regClass = cls then new else old else old

variable (r : Regs) (t : Tcb) (mask : BitVec 32) (s : ThreadState) (x : Reg)

theorem copied_of_ne {cls : BitVec 32} {x : Reg} (h : x.regClass ≠ cls) (new old : Word) :
    copied cls mask x new old = old := by
  rw [copied, if_neg h, ite_self]

theorem copied_of_eq {cls : BitVec 32} {x : Reg} (h : x.regClass = cls) (new old : Word) :
    copied cls mask x new old = if mask &&& cls ≠ 0 then new else old := by
  rw [copied, if_pos h]

/-- Each register belongs to one of the four classes. -/
theorem copied_all (new old : Word) :
    copied pinionThreadStateClassRegsCaller mask x new
      (copied pinionThreadStateClassRegsCallee mask x new
        (copied pinionThreadStateClassRegsSp mask x new
          (copied pinionThreadStateClassRegsIp mask x new old))) =
      if mask &&& x.regClass ≠ 0 then new else old := by
  have hcases : x.regClass = pinionThreadStateClassRegsIp ∨
      x.regClass = pinionThreadStateClassRegsSp ∨
      x.regClass = pinionThreadStateClassRegsCallee ∨
      x.regClass = pinionThreadStateClassRegsCaller := by
    cases x <;> decide
  rcases hcases with h | h | h | h
  · rw [copied_of_ne mask (by rw [h]; decide), copied_of_ne mask (by rw [h]; decide),
      copied_of_ne mask (by rw [h]; decide), copied_of_eq mask h, h]
  · rw [copied_of_ne mask (by rw [h]; decide), copied_of_ne mask (by rw [h]; decide),
      copied_of_eq mask h, copied_of_ne mask (by rw [h]; decide), h]
  · rw [copied_of_ne mask (by rw [h]; decide), copied_of_eq mask h,
      copied_of_ne mask (by rw [h]; decide), copied_of_ne mask (by rw [h]; decide), h]
  · rw [copied_of_eq mask h, copied_of_ne mask (by rw [h]; decide),
      copied_of_ne mask (by rw [h]; decide), copied_of_ne mask (by rw [h]; decide), h]

/-- What the assignments under one bit of the mask come to. -/
theorem ite_copied {α : Type} {get : α → Reg → Word} {cls mask : BitVec 32} {x : Reg} {a b : α}
    {new : Word} (h : get a x = if x.regClass = cls then new else get b x) :
    get (if mask &&& cls ≠ 0 then a else b) x = copied cls mask x new (get b x) := by
  rw [apply_ite (get · x), h]
  rfl

theorem push_ip : (if mask &&& pinionThreadStateClassRegsIp ≠ 0 then
      { r with rip := s.rip }
    else r).get x = copied pinionThreadStateClassRegsIp mask x (s.get x) (r.get x) := by
  apply ite_copied
  cases x <;> rfl

theorem push_sp : (if mask &&& pinionThreadStateClassRegsSp ≠ 0 then
      { r with rsp := s.rsp }
    else r).get x = copied pinionThreadStateClassRegsSp mask x (s.get x) (r.get x) := by
  apply ite_copied
  cases x <;> rfl

theorem push_callee : (if mask &&& pinionThreadStateClassRegsCallee ≠ 0 then
      { r with rbx := s.rbx, rbp := s.rbp, r12 := s.r12, r13 := s.r13, r14 := s.r14, r15 := s.r15 }
    else r).get x = copied pinionThreadStateClassRegsCallee mask x (s.get x) (r.get x) := by
  apply ite_copied
  cases x <;> rfl

theorem push_caller : (if mask &&& pinionThreadStateClassRegsCaller ≠ 0 then
      { r with rax := s.rax, rcx := s.rcx, rdx := s.rdx, rdi := s.rdi, rsi := s.rsi, r8 := s.r8,
               r9 := s.r9, r10 := s.r10, r11 := s.r11 }
    else r).get x = copied pinionThreadStateClassRegsCaller mask x (s.get x) (r.get x) := by
  apply ite_copied
  cases x <;> rfl

theorem pull_ip : (if mask &&& pinionThreadStateClassRegsIp ≠ 0 then
      { s with rip := t.regs.rip }
    else s).get x = copied pinionThreadStateClassRegsIp mask x (t.regs.get x) (s.get x) := by
  apply ite_copied
  cases x <;> rfl

theorem pull_sp : (if mask &&& pinionThreadStateClassRegsSp ≠ 0 then
      { s with rsp := t.regs.rsp }
    else s).get x = copied pinionThreadStateClassRegsSp mask x (t.regs.get x) (s.get x) := by
  apply ite_copied
  cases x <;> rfl

theorem pull_callee : (if mask &&& pinionThreadStateClassRegsCallee ≠ 0 then
      { s with rbx := t.regs.rbx, rbp := t.regs.rbp, r12 := t.regs.r12, r13 := t.regs.r13,
               r14 := t.regs.r14, r15 := t.regs.r15 }
    else s).get x = copied pinionThreadStateClassRegsCallee mask x (t.regs.get x) (s.get x) := by
  apply ite_copied
  cases x <;> rfl

theorem pull_caller : (if mask &&& pinionThreadStateClassRegsCaller ≠ 0 then
      { s with rax := t.regs.rax, rcx := t.regs.rcx, rdx := t.regs.rdx, rdi := t.regs.rdi,
               rsi := t.regs.rsi, r8 := t.regs.r8, r9 := t.regs.r9, r10 := t.regs.r10,
               r11 := t.regs.r11 }
    else s).get x = copied pinionThreadStateClassRegsCaller mask x (t.regs.get x) (s.get x) := by
  apply ite_copied
  cases x <;> rfl

theorem pushRegs_get :
    (pushRegs r mask s).get x = if mask &&& x.regClass ≠ 0 then s.get x else r.get x := by
  unfold pushRegs
  rw [push_caller, push_callee, push_sp, push_ip, copied_all]

/-- Assignments that leave the system fields alone. -/
theorem ite_system {α β : Type} (system : α → β) {c : Prop} [Decidable c] {a b : α}
    (h : system a = system b) : system (if c then a else b) = system b := by
  rw [apply_ite system, h, ite_self]

theorem pushRegs_system : (pushRegs r mask s).system = r.system := by
  unfold pushRegs
  extract_lets r₁ r₂ r₃
  have h₁ : r₁.system = r.system := ite_system Regs.system rfl
  have h₂ : r₂.system = r₁.system := ite_system Regs.system rfl
  have h₃ : r₃.system = r₂.system := ite_system Regs.system rfl
  rw [← h₁, ← h₂, ← h₃]
  exact ite_system Regs.system rfl

theorem pull_system : (if mask &&& pinionThreadStateClassRegsSystem ≠ 0 then
      { s with gs := t.gs, fs := 0, cs := t.regs.cs, ss := t.regs.ss, ds := t.regs.ss }
    else s).get x = s.get x := by
  split
  · cases x <;> rfl
  · rfl

theorem pullRegs_get : (pullRegs t mask s).get x =
    if mask &&& x.regClass ≠ 0 then t.regs.get x else s.get x := by
  unfold pullRegs
  rw [pull_system, pull_caller, pull_callee, pull_sp, pull_ip, copied_all]

theorem pullRegs_system : (pullRegs t mask s).system =
    if mask &&& pinionThreadStateClassRegsSystem ≠ 0 then (0, t.gs, t.regs.cs, t.regs.ss, t.regs.ss)
    else s.system := by
  unfold pullRegs
  extract_lets s₁ s₂ s₃ s₄
  have h₁ : s₁.system = s.system := ite_system ThreadState.system rfl
  have h₂ : s₂.system = s₁.system := ite_system ThreadState.system rfl
  have h₃ : s₃.system = s₂.system := ite_system ThreadState.system rfl
  have h₄ : s₄.system = s₃.system := ite_system ThreadState.system rfl
  rw [← h₁, ← h₂, ← h₃, ← h₄, apply_ite ThreadState.system]
  rfl

end Copy

/-- The laws of the lens for one thread, mask and buffer. -/
structure StateLens (k : Kernel) (thread mask : BitVec 32) (state : Ptr) (s : ThreadState) :
    Prop where
  pushRefused : (apilogicThreadPushState k thread mask state s).1 = false →
    (apilogicThreadPushState k thread mask state s).2 = k
  pullRefused : (apilogicThreadPullState k thread mask state s).1 = false →
    (apilogicThreadPullState k thread mask state s).2 = s
  /-- A push writes the selected registers of the block, and nothing else. -/
  push : (apilogicThreadPushState k thread mask state s).1 = true → ∃ r : Regs,
    (apilogicThreadPushState k thread mask state s).2 =
      k.updTcb (tcbGet k thread) (fun t => { t with regs := r }) ∧
    r.system = (k.tcb (tcbGet k thread)).regs.system ∧
    ∀ x : Reg, r.get x =
      if mask &&& x.bit ≠ 0 then s.get x else (k.tcb (tcbGet k thread)).regs.get x
  /-- A pull writes the selected fields of the buffer, and nothing else. -/
  pull : (apilogicThreadPullState k thread mask state s).1 = true →
    (∀ x : Reg, (apilogicThreadPullState k thread mask state s).2.get x =
      if mask &&& x.bit ≠ 0 then (k.tcb (tcbGet k thread)).regs.get x else s.get x) ∧
    (apilogicThreadPullState k thread mask state s).2.system =
      if mask &&& pinionThreadStateClassRegsSystem ≠ 0 then
        (0, (k.tcb (tcbGet k thread)).gs, (k.tcb (tcbGet k thread)).regs.cs,
          (k.tcb (tcbGet k thread)).regs.ss, (k.tcb (tcbGet k thread)).regs.ss)
      else s.system
  /-- Pulled after a push, the selected fields are those pushed. -/
  pullPush : (apilogicThreadPushState k thread mask state s).1 = true →
    mask &&& pinionThreadStateClassRegsSystem = 0 → ∀ s₀ : ThreadState,
    (apilogicThreadPullState (apilogicThreadPushState k thread mask state s).2 thread mask state
      s₀).1 = true ∧
    ∀ x : Reg, mask &&& x.bit ≠ 0 →
      (apilogicThreadPullState (apilogicThreadPushState k thread mask state s).2 thread mask state
        s₀).2.get x = s.get x
  /-- A push of what was pulled changes nothing. -/
  pushPull : (apilogicThreadPullState k thread mask state s).1 = true →
    apilogicThreadPushState k thread mask state (apilogicThreadPullState k thread mask state s).2 =
      (true, k)

section Accepted
variable {k : Kernel} {thread mask : BitVec 32} {state : Ptr} {s : ThreadState}

/-- The call is accepted. -/
def Accepts (k : Kernel) (thread : BitVec 32) (state : Ptr) : Prop :=
  state ≠ 0 ∧ tcbGet k thread ≠ 0 ∧ (k.tcb (tcbGet k thread)).Stopped

instance (k : Kernel) (thread : BitVec 32) (state : Ptr) : Decidable (Accepts k thread state) :=
  inferInstanceAs (Decidable (_ ∧ _ ∧ _))

theorem push_accepted (h : Accepts k thread state) :
    apilogicThreadPushState k thread mask state s = (true, k.updTcb (tcbGet k thread)
      fun t => { t with regs := pushRegs t.regs mask s }) := by
  rw [apilogicThreadPushState, if_neg h.1]
  dsimp only
  rw [if_neg h.2.1, if_neg (not_not.mpr h.2.2)]

theorem push_refused (h : ¬ Accepts k thread state) :
    apilogicThreadPushState k thread mask state s = (false, k) := by
  unfold apilogicThreadPushState
  dsimp only
  split_ifs with h1 h2 h3
  · rfl
  · rfl
  · exact absurd ⟨h1, h2, h3⟩ h
  · rfl

theorem pull_accepted (h : Accepts k thread state) :
    apilogicThreadPullState k thread mask state s =
      (true, pullRegs (k.tcb (tcbGet k thread)) mask s) := by
  rw [apilogicThreadPullState, if_neg h.1]
  dsimp only
  rw [if_neg h.2.1, if_neg (not_not.mpr h.2.2)]

theorem pull_refused (h : ¬ Accepts k thread state) :
    apilogicThreadPullState k thread mask state s = (false, s) := by
  unfold apilogicThreadPullState
  dsimp only
  split_ifs with h1 h2 h3
  · rfl
  · rfl
  · exact absurd ⟨h1, h2, h3⟩ h
  · rfl

/-- The bit of a register is part of its class, and equals it but for the callee-saved ones. -/
theorem class_of_bit {x : Reg} (h : mask &&& x.bit ≠ 0) : mask &&& x.regClass ≠ 0 := by
  have hsub : x.regClass &&& x.bit = x.bit := by
    cases x <;> decide
  intro hz
  rw [← hsub, ← BitVec.and_assoc, hz] at h
  exact h (BitVec.zero_and)

theorem bit_of_class {x : Reg} (hx : x.bit ≠ 0x4) : x.regClass = x.bit := by
  revert hx
  cases x <;> decide

/-- The other callee-saved registers are copied under the two single bits as well. -/
theorem class_iff_bit (hm : mask &&& 0x4 ≠ 0 ∨ mask &&& 0x3 = 0) (x : Reg) :
    mask &&& x.regClass ≠ 0 ↔ mask &&& x.bit ≠ 0 := by
  refine ⟨fun hc => ?_, class_of_bit⟩
  by_cases hx : x.bit = 0x4
  · rw [hx]
    rcases hm with h4 | h3
    · exact h4
    · have hcls : x.regClass = 0x3 ||| 0x4 := by
        revert hx
        cases x <;> decide
      rw [hcls, BitVec.and_or_distrib_left, h3] at hc
      exact fun hz => hc (by rw [hz]; rfl)
  · rwa [bit_of_class hx] at hc

/-- What the copy of a register comes to when its class and its bit agree, or when nothing is
changed by it. -/
theorem copy_eq {x : Reg} {new old : Word}
    (h : mask &&& 0x4 ≠ 0 ∨ mask &&& 0x3 = 0 ∨ (x.bit = 0x4 → new = old)) :
    (if mask &&& x.regClass ≠ 0 then new else old) = if mask &&& x.bit ≠ 0 then new else old := by
  rcases or_assoc.mpr h with hm | heq
  · simp only [class_iff_bit hm x]
  · by_cases hx : x.bit = 0x4
    · rw [heq hx, ite_self, ite_self]
    · rw [bit_of_class hx]

theorem tcbGet_updTcb (k : Kernel) (p : Ptr) (f : Tcb → Tcb) (thread : BitVec 32) :
    tcbGet (k.updTcb p f) thread = tcbGet k thread := rfl

theorem accepts_push (h : Accepts k thread state) (r : Regs → Regs) :
    Accepts (k.updTcb (tcbGet k thread) fun t => { t with regs := r t.regs }) thread state := by
  refine ⟨h.1, h.2.1, ?_⟩
  rw [tcbGet_updTcb, Kernel.updTcb_self]
  exact h.2.2

/-- A push of what was pulled. -/
theorem push_pulled (h : Accepts k thread state) :
    apilogicThreadPushState k thread mask state (pullRegs (k.tcb (tcbGet k thread)) mask s) =
      (true, k) := by
  have hregs : pushRegs (k.tcb (tcbGet k thread)).regs mask
      (pullRegs (k.tcb (tcbGet k thread)) mask s) = (k.tcb (tcbGet k thread)).regs := by
    refine Regs.ext_get (fun x => ?_) (pushRegs_system ..)
    rw [pushRegs_get, pullRegs_get]
    split <;> rfl
  have hblock : ∀ (t : Tcb) (r : Regs), r = t.regs → { t with regs := r } = t := by
    rintro t _ rfl
    rfl
  rw [push_accepted h, Kernel.updTcb, hblock _ _ hregs, Function.update_eq_self]

end Accepted

/-- The laws hold exactly if the mask does not select the instruction or stack pointer without
the callee-saved registers, or if these are the same in the block and in the buffer. -/
theorem thread_state_lens (k : Kernel) (thread mask : BitVec 32) (state : Ptr) (s : ThreadState) :
    StateLens k thread mask state s ↔ (Accepts k thread state →
      mask &&& 0x4 ≠ 0 ∨ mask &&& 0x3 = 0 ∨
        ∀ x : Reg, x.bit = 0x4 → s.get x = (k.tcb (tcbGet k thread)).regs.get x) := by
  constructor
  · intro h ha
    by_contra hc
    rw [not_or, not_or, not_not] at hc
    obtain ⟨h4, h3, hne⟩ := hc
    obtain ⟨r, hr, -, hget⟩ := h.push (by rw [push_accepted ha])
    rw [push_accepted ha] at hr
    have hregs : pushRegs (k.tcb (tcbGet k thread)).regs mask s = r := by
      have hblock := congrArg (fun k' : Kernel => (k'.tcb (tcbGet k thread)).regs) hr
      dsimp only at hblock
      rwa [Kernel.updTcb_self, Kernel.updTcb_self] at hblock
    refine hne fun x hx => ?_
    have hcls : mask &&& x.regClass ≠ 0 := by
      have hsub : x.regClass = 0x3 ||| 0x4 := by
        revert hx
        cases x <;> decide
      rw [hsub, BitVec.and_or_distrib_left, h4]
      exact fun hz => h3 (by rwa [show (0 : BitVec 32) = 0#32 from rfl, BitVec.or_zero] at hz)
    have hx' := hget x
    rw [← hregs, pushRegs_get, if_pos hcls, hx, if_neg (not_not.mpr h4)] at hx'
    exact hx'
  · intro hcond
    by_cases ha : Accepts k thread state
    · have hm := hcond ha
      have hpush : apilogicThreadPushState k thread mask state s =
          (true, k.updTcb (tcbGet k thread) fun t => { t with regs := pushRegs t.regs mask s }) :=
        push_accepted ha
      constructor
      · rw [hpush]
        intro h
        cases h
      · rw [pull_accepted ha]
        intro h
        cases h
      · intro _
        refine ⟨pushRegs (k.tcb (tcbGet k thread)).regs mask s, ?_, pushRegs_system .., fun x => ?_⟩
        · rw [hpush]
          rfl
        · rw [pushRegs_get]
          exact copy_eq (hm.imp_right (Or.imp_right fun h => h x))
      · intro _
        rw [pull_accepted ha]
        refine ⟨fun x => ?_, pullRegs_system ..⟩
        rw [pullRegs_get]
        exact copy_eq (hm.imp_right (Or.imp_right fun h hx => (h x hx).symm))
      · intro _ _ s₀
        rw [hpush]
        dsimp only
        rw [pull_accepted (accepts_push ha fun r => pushRegs r mask s), tcbGet_updTcb,
          Kernel.updTcb_self]
        refine ⟨rfl, fun x hx => ?_⟩
        rw [pullRegs_get, if_pos (class_of_bit hx), pushRegs_get, if_pos (class_of_bit hx)]
      · intro _
        rw [pull_accepted ha]
        exact push_pulled ha
    · have hpush : ∀ s' : ThreadState, apilogicThreadPushState k thread mask state s' = (false, k) :=
        fun s' => push_refused ha
      have hpull : apilogicThreadPullState k thread mask state s = (false, s) := pull_refused ha
      constructor
      · rw [hpush]
        exact fun _ => rfl
      · rw [hpull]
        exact fun _ => rfl
      · rw [hpush]
        intro h
        cases h
      · rw [hpull]
        intro h
        cases h
      · rw [hpush]
        intro h
        cases h
      · rw [hpull]
        intro h
        cases h

/-- A kernel with one thread, number one, whose block is at `base` and is suspended. -/
def oneThread (regs : Regs) : Kernel where
  tcb _ := ⟨0, tcbStateSuspended, 1, fun _ => 0, 0, 0, 0, 0, regs, 0, 0, 0, 0⟩
  scheduleHead := 0
  scheduleTail := 0
  queueHead _ := 0
  tcbTable i := if i = 0 then some fun j => if j = 1 then base else 0 else none
  tcbTableLock := false
  tcbList := 0
  vectorPageTable _ := ⟨none, none⟩
  activeTcb := 0
  activePcx := 0
  activePcxId := 0
  tssRsp0 := 0
  tssIst1 := 0
  paging := bootPaging

def clearRegs : Regs := ⟨0, 0, 0, 0, 0, 0, 0, 0, 0, 0, 0, 0, 0, 0, 0, 0, 0, 0, 0, 0⟩

/-- A push of the instruction pointer alone writes rbx as well. -/
theorem thread_state_lens_fails : ¬ ∀ (k : Kernel) (thread mask : BitVec 32) (state : Ptr)
    (s : ThreadState), StateLens k thread mask state s := by
  intro h
  obtain ⟨r, hr, -, hget⟩ := (h (oneThread clearRegs) 1 0x1 base
    ⟨0x400000, 0, 7, 0, 0, 0, 0, 0, 0, 0, 0, 0, 0, 0, 0, 0, 0, 0, 0, 0, 0, 0⟩).push (by decide)
  have hrbx : (7 : Word) = r.rbx := congrArg (fun k : Kernel => (k.tcb base).regs.rbx) hr
  have hlaw : r.rbx = 0 := hget .rbx
  rw [hlaw] at hrbx
  exact absurd hrbx (by decide)

end Pinion64
